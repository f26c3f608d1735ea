import ModuleSystem.Proofs.Loader.Once
import ModuleSystem.Proofs.Loader.Sessions

/-!
# The registry as an index

The registry maps each URL to at most one record, which is one of that URL. Records are only added,
at the end, and keep their numbers; so the registered ones, in the order in which they were made,
are all that is needed to say what the loader lists (`Store.registered`).

What a URL is registered to changes for a reason that concerns this URL (`Machine.Rebinds`): it is
imported, or a dependency of a module that is being linked, while nothing is registered under it; or
it is defined, or deleted. A record that has lost its place in the registry never gets one again.

## Main definitions

* `Store.registered` : the registered records, in the order in which they were made.
* `Store.Lists` : what the loader tells of its modules agrees with the registered records.
* `Machine.Rebinds` : what a URL is registered to changes in a step.

## Main results

* `Machine.Run.indexed` : all of this, in every run.
-/

namespace ModuleSystem.Loader

variable {C M : Type}

namespace Store

/-- The registered records, in the order in which they were made. -/
def registered (s : Store C) : List RecordId :=
  (List.range s.records.size).filter fun r => s.lookup (s.record r).url = some r

/-- The entries of the registry are in the order in which their records were made. -/
def Ordered (s : Store C) : Prop :=
  (s.registry.map Prod.snd).Pairwise (· < ·)

/-- What the loader tells of its modules agrees with the records that are registered. -/
structure Lists (s : Store C) : Prop where
  entries : s.entries = s.registered.map fun r => ((s.record r).url, s.stateOf r)
  once : (s.entries.map fun entry => entry.1.href).Nodup
  has : ∀ url, s.has url = true ↔ ∃ entry ∈ s.entries, entry.1.href = url.href
  state : ∀ url state, s.state? url = some state ↔
    ∃ named, (named, state) ∈ s.entries ∧ named.href = url.href
  error : ∀ url error, s.error? url = some error ↔
    ∃ named, (named, .failed error) ∈ s.entries ∧ named.href = url.href
  get : ∀ url r, s.get? url = some r ↔ s.lookup url = some r ∧
    ∃ named, (named, .executed) ∈ s.entries ∧ named.href = url.href

section Index

variable {s s' : Store C} {r n : RecordId} {url target base : Url} {referrer : Option Url}
  {entries : List (String × Value)}

/-! ### Lookups -/

/-- One more entry decides for its URL if nothing else is registered under it. -/
private theorem lookup_append_entry (registry : s'.registry = s.registry ++ [(target.href, n)]) :
    s'.lookup url = (s.lookup url).or (if target.href = url.href then some n else none) := by
  rw [lookup, lookup, registry, List.lookup_append]
  congr 1
  by_cases same : target.href = url.href
  · simp [same]
  · simp [List.lookup_cons, beq_false_of_ne (Ne.symm same), same]

theorem resolve_getOrCreate (s : Store C) (url : Url) (referrer : Option Url) :
    (s.getOrCreate url referrer).1.resolve = s.resolve := by
  cases h : s.lookup url with
  | some r => rw [getOrCreate_of_lookup h]
  | none =>
    rw [getOrCreate_of_lookup_none h]
    rfl

/-- When the record of a URL is got or made, what another URL is registered to stays, and the URL
itself gets a new record only if it had none. -/
private theorem lookup_getOrCreate_cases (s : Store C) (target url : Url)
    (referrer : Option Url) :
    (s.getOrCreate target referrer).1.lookup url = s.lookup url ∨
      target.href = url.href ∧ s.lookup url = none ∧
        (s.getOrCreate target referrer).1.lookup url = some s.records.size := by
  cases h : s.lookup target with
  | some r =>
    rw [getOrCreate_of_lookup h]
    exact .inl rfl
  | none =>
    rw [getOrCreate_of_lookup_none h, lookup_append_entry create_same.2.2.2.2.2.2.1]
    by_cases same : target.href = url.href
    · have free : s.lookup url = none := by rwa [lookup, ← same]
      exact .inr ⟨same, free, by simp [free, same]⟩
    · exact .inl (by simp [same])

/-- When dependencies are resolved, what a URL is registered to stays, unless one of the specifiers
leads to it and nothing has been registered under it. -/
private theorem lookup_resolveDependencies {specifiers : List (String × Option SetterId)}
    {result : Except LoaderError (List Dependency)}
    (h : Machine.resolveDependencies base s specifiers = (s', result)) :
    s'.lookup url = s.lookup url ∨ s.lookup url = none ∧
      (∃ specifier ∈ specifiers, ∃ target, s.resolve specifier.1 (some base) = .ok target ∧
        target.href = url.href) ∧
      ∃ n, s'.lookup url = some n ∧ s.records.size ≤ n := by
  induction specifiers generalizing s s' result with
  | nil =>
    rw [Machine.resolveDependencies] at h
    cases h
    exact .inl rfl
  | cons specifier rest ih =>
    rw [Machine.resolveDependencies] at h
    split at h
    · cases h
      exact .inl rfl
    · rename_i target resolved
      rcases hr : Machine.resolveDependencies base (s.getOrCreate target (some base)).1 rest with
        ⟨s₂, others⟩
      simp only [hr] at h
      cases h
      have le := (creates_getOrCreate s target (some base)).size_records_le
      rcases lookup_getOrCreate_cases s target url (some base) with kept | ⟨same, free, now⟩
      · refine (ih hr).imp (fun h => h.trans kept) ?_
        rintro ⟨free, ⟨e, mem, target', resolved', same⟩, n, now, ge⟩
        refine ⟨kept ▸ free, ⟨e, List.mem_cons_of_mem _ mem, target', ?_, same⟩, n, now,
          Nat.le_trans le ge⟩
        rwa [resolve_getOrCreate] at resolved'
      · refine .inr ⟨free, ⟨specifier, List.mem_cons_self, target, resolved, same⟩, _, ?_,
          Nat.le_refl _⟩
        exact (creates_resolveDependencies hr).lookup now

theorem lookup_delete_eq (s : Store C) (target url : Url) : (s.delete target).1.lookup url =
    if target.href = url.href then none else s.lookup url := by
  split_ifs with same
  · have gone := lookup_delete s target
    rwa [lookup, same] at gone
  · cases found : s.lookup target with
    | none => rw [delete_of_lookup_none found]
    | some r =>
      rw [delete_of_lookup found, lookup, note_same.2.2.2.2.2.2.1, (idle_silence _ _).registry]
      exact lookup_filter (Ne.symm same) s.registry

theorem lookup_define_eq (s : Store C) (target url : Url) (entries : List (String × Value)) :
    (s.define target entries).1.lookup url =
      if target.href = url.href then some s.records.size else s.lookup url := by
  have registry : (s.define target entries).1.registry =
      (s.delete target).1.registry ++ [(target.href, s.records.size)] := registry_define
  rw [lookup_append_entry registry, lookup_delete_eq]
  split_ifs <;> simp

/-! ### Entries -/

/-- A record is registered under its URL just if the registry has an entry of it. -/
theorem Listed.lookup_eq_some_iff (listed : s.Listed) :
    s.lookup url = some r ↔ (url.href, r) ∈ s.registry := by
  constructor
  · intro found
    obtain ⟨before, after, same, _⟩ := List.lookup_eq_some_iff.mp found
    simp [same]
  · intro mem
    obtain ⟨before, after, same⟩ := List.append_of_mem mem
    refine List.lookup_eq_some_iff.mpr ⟨before, after, same, fun entry earlier => ?_⟩
    have keys := listed.keys
    rw [same, List.map_append, List.nodup_append] at keys
    exact bne_iff_ne.mpr (keys.2.2 _ (List.mem_map_of_mem earlier) _ (by simp)).symm

theorem Listed.href_eq (listed : s.Listed) (found : s.lookup url = some r) :
    r < s.records.size ∧ (s.record r).url.href = url.href := by
  obtain ⟨known, of⟩ := listed.entries _ (listed.lookup_eq_some_iff.mp found)
  simp only [IsOf, Bool.and_eq_true, beq_iff_eq] at of
  exact ⟨known, of.2⟩

theorem Listed.mem_registered (listed : s.Listed) :
    r ∈ s.registered ↔ r ∈ s.registry.map Prod.snd := by
  simp only [registered, List.mem_filter, List.mem_range, decide_eq_true_eq]
  constructor
  · rintro ⟨_, found⟩
    exact List.mem_map_of_mem (f := Prod.snd) (listed.lookup_eq_some_iff.mp found)
  · intro named
    obtain ⟨entry, mem, rfl⟩ := List.mem_map.mp named
    obtain ⟨known, of⟩ := listed.entries entry mem
    simp only [IsOf, Bool.and_eq_true, beq_iff_eq] at of
    refine ⟨known, listed.lookup_eq_some_iff.mpr ?_⟩
    rwa [of.2]

/-- The entries of the registry are those of the registered records, if they are in the order in
which these were made. -/
theorem Listed.registered_eq (listed : s.Listed) (ordered : s.Ordered) :
    s.registered = s.registry.map Prod.snd := by
  have made : s.registered.Pairwise (· < ·) := (List.pairwise_lt_range).filter _
  have same : s.registered.Perm (s.registry.map Prod.snd) :=
    (List.perm_ext_iff_of_nodup made.nodup ordered.nodup).mpr fun r => listed.mem_registered
  exact same.eq_of_pairwise (fun _ _ _ _ lt gt => absurd lt (Nat.lt_asymm gt)) made ordered

theorem Listed.lists (listed : s.Listed) (ordered : s.Ordered) : s.Lists := by
  have entries : s.entries = s.registered.map fun r => ((s.record r).url, s.stateOf r) := by
    rw [listed.registered_eq ordered, List.map_map]
    rfl
  -- an entry of a URL is that of the record which is registered under it
  have entry : ∀ url state, (∃ named, (named, state) ∈ s.entries ∧ named.href = url.href) ↔
      ∃ r, s.lookup url = some r ∧ s.stateOf r = state := by
    intro url state
    constructor
    · rintro ⟨named, shown, same⟩
      obtain ⟨⟨href, r⟩, mem, rfl, rfl⟩ := by
        simpa only [Store.entries, List.mem_map, Prod.mk.injEq] using shown
      obtain ⟨_, of⟩ := listed.entries _ mem
      simp only [IsOf, Bool.and_eq_true, beq_iff_eq] at of
      refine ⟨r, listed.lookup_eq_some_iff.mpr ?_, rfl⟩
      rwa [← same, of.2]
    · rintro ⟨r, found, rfl⟩
      exact ⟨_, List.mem_map_of_mem (listed.lookup_eq_some_iff.mp found), (listed.href_eq found).2⟩
  refine ⟨entries, ?_, fun url => ?_, fun url state => ?_, fun url error => ?_, fun url r => ?_⟩
  · have hrefs : (s.entries.map fun entry => entry.1.href) = s.registry.map Prod.fst := by
      rw [Store.entries, List.map_map]
      refine List.map_congr_left fun e mem => ?_
      obtain ⟨_, of⟩ := listed.entries e mem
      simp only [IsOf, Bool.and_eq_true, beq_iff_eq] at of
      exact of.2
    rw [hrefs]
    exact listed.keys
  · rw [Store.has, Option.isSome_iff_exists]
    constructor
    · rintro ⟨r, found⟩
      obtain ⟨named, mem, same⟩ := (entry url _).mpr ⟨r, found, rfl⟩
      exact ⟨_, mem, same⟩
    · rintro ⟨⟨named, state⟩, mem, same⟩
      obtain ⟨r, found, _⟩ := (entry url state).mp ⟨named, mem, same⟩
      exact ⟨r, found⟩
  · rw [entry, Store.state?, Option.map_eq_some_iff]
  · rw [entry, Store.error?, Store.state?]
    simp only [Option.bind_eq_some_iff, Option.map_eq_some_iff, ModuleState.error?_eq_some]
    constructor
    · rintro ⟨_, ⟨r, found, same⟩, failed⟩
      exact ⟨r, found, same.trans failed⟩
    · rintro ⟨r, found, failed⟩
      exact ⟨_, ⟨r, found, failed⟩, rfl⟩
  · rw [entry, Store.get?, Option.filter_eq_some_iff]
    refine and_congr_right fun found => ?_
    rw [decide_eq_true_eq]
    constructor
    · exact fun executed => ⟨r, found, executed⟩
    · rintro ⟨r', found', executed⟩
      rwa [Option.some.inj (found.symm.trans found')]

end Index

/-! ### Order -/

section Order

variable {s s' : Store C} {url : Url} {x : Record C}

/-- One more entry keeps the order if it is that of a record made later. -/
private theorem Ordered.append {href : String} {n : RecordId} (ordered : s.Ordered)
    (known : ∀ e ∈ s.registry, e.2 < n) (registry : s'.registry = s.registry ++ [(href, n)]) :
    s'.Ordered := by
  rw [Ordered, registry, List.map_append, List.map_singleton, List.pairwise_append]
  refine ⟨ordered, List.pairwise_singleton _ _, fun r registered last hlast => ?_⟩
  obtain ⟨e, mem, rfl⟩ := List.mem_map.mp registered
  rw [List.mem_singleton.mp hlast]
  exact known e mem

private theorem Creates.ordered (h : Creates s s') (ordered : s.Ordered)
    (known : ∀ e ∈ s.registry, e.2 < s.records.size) : s'.Ordered := by
  induction h with
  | refl => exact ordered
  | create h url referrer _ ih =>
    refine ih.append (fun e mem => ?_) create_same.2.2.2.2.2.2.1
    rcases h.mem_registry mem with mem | ⟨_, lt⟩
    · exact Nat.lt_of_lt_of_le (known e mem) h.size_records_le
    · exact lt

private theorem Ordered.delete (ordered : s.Ordered) : (s.delete url).1.Ordered := by
  cases found : s.lookup url with
  | none => rwa [delete_of_lookup_none found]
  | some r =>
    rw [delete_of_lookup found, Ordered, note_same.2.2.2.2.2.2.1, (idle_silence _ _).registry]
    exact ordered.sublist (List.filter_sublist.map Prod.snd)

end Order

end Store

namespace Machine

open Store

/-- What a URL is registered to changes between two states for a reason that concerns this URL. -/
inductive Rebinds (m m' : Machine C M) (url : Url) : Prop
  /-- The URL is imported, and nothing has been registered under it. -/
  | imported {request target referrer} (control : m.control = .serve request)
      (resolved : m.store.target? request = some (.ok (target, referrer)))
      (same : target.href = url.href) (free : m.store.lookup url = none)
      (now : m'.store.lookup url = some m.store.records.size)
  /-- A module that is being linked depends on the URL, and nothing has been registered under it. -/
  | linked {r specifier target n} (stack : m.stack = .linking r :: m'.stack)
      (control : m.control = .polled (some (.ok ())))
      (depends : specifier ∈ (m.store.record r).specifiers)
      (resolved : m.store.resolve specifier (some (m.store.record r).url) = .ok target)
      (same : target.href = url.href) (free : m.store.lookup url = none)
      (new : m.store.records.size ≤ n) (now : m'.store.lookup url = some n)
  | defined {target entries} (control : m.control = .serve (.define target entries))
      (same : target.href = url.href) (now : m'.store.lookup url = some m.store.records.size)
  | deleted {target} (control : m.control = .serve (.delete target))
      (same : target.href = url.href) (now : m'.store.lookup url = none)
  /-- The loader is dropped, and all modules with it. -/
  | dropped (rests : m.reply?.isSome) (now : ∀ url, m'.store.lookup url = none)

section Steps

variable {host : Host C M} {ρ ρ' : Roles} {m m' : Machine C M} {trace : List (Machine C M)}
  {url : Url} {r : RecordId}

/-- When a module is linked, a URL gets a record only if one of the specifiers leads to it. -/
private theorem lookup_linked (url : Url) {s s' : Store C} {result : Except LoaderError (List Dependency)}
    (resolved : resolveDependencies (s.record r).url
      (s.update r fun x => { x with pendingSetters := [] })
      ((s.record r).specifiers.zip (s.record r).pendingSetters) = (s', result)) :
    s'.lookup url = s.lookup url ∨ s.lookup url = none ∧
      ∃ specifier ∈ (s.record r).specifiers, ∃ target n,
        s.resolve specifier (some (s.record r).url) = .ok target ∧ target.href = url.href ∧
        s.records.size ≤ n ∧ s'.lookup url = some n := by
  refine (lookup_resolveDependencies resolved).imp_right ?_
  rintro ⟨free, ⟨⟨specifier, setter⟩, mem, target, found, same⟩, n, now, new⟩
  rw [size_records_update] at new
  exact ⟨free, specifier, (List.of_mem_zip mem).1, target, n, found, same, new, now⟩

/-- What a URL is registered to stays in a step, or changes for a reason that concerns the URL. -/
theorem Rule.rebinds (h : Rule host m m') (url : Url) :
    m'.store.lookup url = m.store.lookup url ∨ Rebinds m m' url := by
  have of_registry : ∀ {s s' : Store C}, s'.registry = s.registry →
      s'.lookup url = s.lookup url := fun registry => by rw [lookup, lookup, registry]
  cases h
  case starts s _ _ request target referrer found =>
    rw [show (importRecord (s.getOrCreate target referrer).1
      (s.getOrCreate target referrer).2).1.lookup url = (s.getOrCreate target referrer).1.lookup url
      from of_registry importRecord_same.2.2.2.1]
    refine (lookup_getOrCreate_cases ..).imp_right ?_
    rintro ⟨same, free, now⟩
    exact .imported rfl found same free ((of_registry importRecord_same.2.2.2.1).trans now)
  case defines s _ _ target entries =>
    by_cases same : target.href = url.href
    · exact .inr (.defined rfl same (by rw [lookup_define_eq, if_pos same]))
    · exact .inl (by rw [lookup_define_eq, if_neg same])
  case deletes s _ _ target =>
    by_cases same : target.href = url.href
    · exact .inr (.deleted rfl same (by rw [lookup_delete_eq, if_pos same]))
    · exact .inl (by rw [lookup_delete_eq, if_neg same])
  case unresolved s _ _ module s' error _ _ resolved =>
    have after : (s'.fail module error).1.lookup url = s'.lookup url := of_registry (by simp)
    refine (lookup_linked url resolved).imp after.trans ?_
    rintro ⟨free, specifier, mem, target, n, found, same, new, now⟩
    exact .linked rfl rfl mem found same free new (after.trans now)
  case resolves s _ _ module s' dependencies _ _ resolved =>
    have after : (s'.newGroup dependencies.length).1.lookup url = s'.lookup url :=
      of_registry (by simp)
    refine (lookup_linked url resolved).imp after.trans ?_
    rintro ⟨free, specifier, mem, target, n, found, same, new, now⟩
    exact .linked rfl rfl mem found same free new (after.trans now)
  all_goals refine .inl (of_registry ?_)
  case move => rfl
  case hookWaits | bodyWaits => exact (still_await ..).registry
  case bodyFails after _ => simp [after]
  case publishes after way => simp [way.still.registry, after]
  case handsOver way _ after =>
    rw [after.still.registry, (idle_foldl idle_listen _ _).registry, way.still.registry]
  case handedOver way =>
    rw [attach_same.2.2.2.2.1, (idle_foldl idle_listen _ _).registry, way.still.registry]
  case joins way _ | joinWaits way _ _ | joinOrphaned way _ _ _ | joinFails way _ _ _ _ =>
    simp [way.still.registry]
  case gathers way _ _ | gatherWaits way _ _ _ | gathered way _ _ | gatherOrphaned way _ _
      | gatherFails way _ _ =>
    simp [way.still.registry]
  case collects way _ _ | collectWaits way _ _ _ | collectOrphaned way _ | collectTooLate way _ _
      | collectFails way _ _ | collected way _ _ _ _ =>
    simp [way.still.registry]
  all_goals simp

theorem SoundPause.rebinds (pause : SoundPause ρ m m') (url : Url) :
    m'.store.lookup url = m.store.lookup url ∨ Rebinds m m' url := by
  rcases pause.change.kept.loader with ⟨registry, _⟩ | ⟨registry, _⟩
  · exact .inl (by rw [lookup, lookup, registry])
  · exact .inr (.dropped pause.rests fun url => by rw [lookup, registry, List.lookup_nil])

/-! ### Runs -/

private theorem Rule.ordered (h : Rule host m m') (listed : m.store.Listed)
    (ordered : m.store.Ordered) : m'.store.Ordered := by
  have known := fun e mem => (listed.entries e mem).1
  have quiet : m'.store.registry = m.store.registry → m'.store.Ordered := fun registry => by
    rwa [Ordered, registry]
  cases h.news with
  | none _ registry _ | hookCalled _ _ _ _ registry _ | bodyStarted _ _ _ _ registry _
      | bodyEnded _ _ _ registry _ | changed _ _ _ registry _ | called _ _ _ registry _ =>
    exact quiet registry
  | made idle creates _ registry _ _ =>
    rw [Ordered, registry]
    refine creates.ordered ?_ ?_
    · rwa [Ordered, idle.registry]
    · rwa [idle.registry, idle.size_records]
  | deleted _ store =>
    rw [store]
    exact ordered.delete
  | defined _ _ store =>
    rw [store]
    exact ordered.delete.append (fun e mem => known e (mem_registry_delete mem)) registry_define

/-- In every run the registry is in the order in which records were made. -/
theorem Traced.ordered (h : Traced host ρ (m :: trace)) : m.store.Ordered := by
  refine h.invariant (P := fun _ m => m.store.Ordered) (fun _ _ _ => .nil)
    (fun traced step ordered => step.rule.ordered traced.listed ordered) fun _ pause ordered => ?_
  rcases pause.change.kept.loader with ⟨registry, _⟩ | ⟨registry, _⟩
  · rwa [Ordered, registry]
  · rw [Ordered, registry]
    exact .nil

/-- A record stays where it is, and stays that of its module; it is registered only if it has been
all along. -/
structure Retains (m m' : Machine C M) (r : RecordId) : Prop where
  known : r < m'.store.records.size
  url : (m'.store.record r).url = (m.store.record r).url
  instantiation : (m'.store.record r).instantiation = (m.store.record r).instantiation
  linking : (m'.store.record r).linking = (m.store.record r).linking
  registered : ∀ url, m'.store.lookup url = some r → m.store.lookup url = some r

theorem Retains.refl (known : r < m.store.records.size) : Retains m m r :=
  ⟨known, rfl, rfl, rfl, fun _ => id⟩

theorem Retains.trans {m₁ m₂ m₃ : Machine C M} (h : Retains m₁ m₂ r) (h' : Retains m₂ m₃ r) :
    Retains m₁ m₃ r where
  known := h'.known
  url := h'.url.trans h.url
  instantiation := h'.instantiation.trans h.instantiation
  linking := h'.linking.trans h.linking
  registered url found := h.registered url (h'.registered url found)

theorem SoundStep.retains (step : SoundStep host ρ ρ' m m') (listed : m.store.Listed)
    (listed' : m'.store.Listed) (known : r < m.store.records.size) : Retains m m' r where
  known := Nat.lt_of_lt_of_le known step.rule.size_records_le
  url := (step.rule.recordChange known).url_eq
  instantiation := (step.rule.recordChange known).instantiation_eq
  linking := (step.rule.recordChange known).linking_eq
  registered url found := by
    rcases step.rule.mem_registry (listed'.lookup_eq_some_iff.mp found) with mem | ⟨new, _⟩
    · exact listed.lookup_eq_some_iff.mpr mem
    · exact absurd known (Nat.not_lt_of_le new)

theorem SoundPause.retains (pause : SoundPause ρ m m') (known : r < m.store.records.size) :
    Retains m m' r where
  known := by rwa [pause.change.kept.size_records]
  url := by rw [pause.change.kept.record]
  instantiation := by rw [pause.change.kept.record]
  linking := by rw [pause.change.kept.record]
  registered url found := by
    rcases pause.change.kept.loader with ⟨registry, _⟩ | ⟨registry, _⟩
    · rwa [lookup, ← registry]
    · rw [lookup, registry] at found
      cases found

theorem Traced.retains (h : Traced host ρ (m :: trace)) {x : Machine C M} (mem : x ∈ m :: trace)
    (known : r < x.store.records.size) : Retains x m r := by
  generalize hl : m :: trace = states at h mem
  induction h generalizing m trace with
  | start base resolver memory =>
    obtain rfl := List.mem_singleton.mp mem
    exact absurd known (Nat.not_lt_zero r)
  | @step _ _ before _ _ traced step ih =>
    cases hl
    rcases List.mem_cons.mp mem with rfl | mem
    · exact .refl known
    · have sofar := ih rfl mem
      exact sofar.trans (step.retains traced.listed (Traced.step traced step).listed sofar.known)
  | @outside _ before _ _ traced pause ih =>
    cases hl
    rcases List.mem_cons.mp mem with rfl | mem
    · exact .refl known
    · have sofar := ih rfl mem
      exact sofar.trans (pause.retains sofar.known)

/-- In every run, whatever is imported, polled, defined and deleted, the registry is a sound index
of the records. -/
theorem Run.indexed (h : Run host (m :: trace)) :
    (∀ url r, m.store.lookup url = some r →
      r < m.store.records.size ∧ (m.store.record r).url.href = url.href) ∧
    (∀ x ∈ m :: trace, ∀ r < x.store.records.size, Retains x m r) ∧
    m.store.Lists ∧
    ∀ after before earlier, after :: before :: earlier <:+ m :: trace → ∀ url,
      after.store.lookup url ≠ before.store.lookup url → Rebinds before after url := by
  obtain ⟨ρ, traced⟩ := h.exists_roles
  have listed := traced.listed
  refine ⟨fun url r found => listed.href_eq found, fun x mem r known => traced.retains mem known,
    listed.lists traced.ordered, fun after before earlier below url changed => ?_⟩
  obtain ⟨_, part⟩ := traced.suffix below nofun
  cases part with
  | step _ step => exact (step.rule.rebinds url).resolve_left changed
  | outside _ pause => exact (pause.rebinds url).resolve_left changed

end Steps

/-- A module whose body defines its dependency anew. -/
def replacingModules : List (String × Script.Program) :=
  [("x:/a", { dependencies := [("x:/b", none)]
              body := some (.steps [.delete { scheme := "x", path := "/b" },
                .define { scheme := "x", path := "/b" } []]) }),
   ("x:/b", {})]

/-- The import of the module is polled, and then the module is deleted and imported again. -/
def replacingStimuli : List (Stimulus Script.Memory) :=
  [.request (.poll (.waiting 0 2)), .request (.delete { scheme := "x", path := "/a" }),
   .request (.start "x:/a" none)]

section Replacing

/-- What this comes to. -/
def replacingEnd : Machine Script.Code Script.Memory :=
  scriptedEnd replacingModules "x:/a" replacingStimuli 60

/-- The states before. -/
def replacingTrace : List (Machine Script.Code Script.Memory) :=
  (scripted replacingModules "x:/a" replacingStimuli 60).tail

theorem Run.indexed_replacing : Run Script.host (replacingEnd :: replacingTrace) ∧
    (∃ x ∈ replacingTrace, x.store.registry = [("x:/a", 0), ("x:/b", 1)]) ∧
    replacingEnd.store.registry = [("x:/b", 2), ("x:/a", 3)] ∧
    (∀ x ∈ replacingEnd :: replacingTrace, ∀ r < x.store.records.size,
      Retains x replacingEnd r) ∧
    replacingEnd.store.Lists ∧
    ∀ after before earlier, after :: before :: earlier <:+ replacingEnd :: replacingTrace →
      ∀ url, after.store.lookup url ≠ before.store.lookup url → Rebinds before after url := by
  have run : Run Script.host (replacingEnd :: replacingTrace) :=
    .scripted replacingModules "x:/a" replacingStimuli 60
  obtain ⟨_, retains, lists, rebinds⟩ := Run.indexed run
  exact ⟨run, by decide +kernel, by decide +kernel, retains, lists, rebinds⟩

end Replacing

end Machine

end ModuleSystem.Loader
