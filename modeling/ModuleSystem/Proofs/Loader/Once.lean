import Mathlib.Data.List.Perm.Subperm
import ModuleSystem.Proofs.Loader.Answers
import ModuleSystem.Proofs.Loader.Bodies
import ModuleSystem.Proofs.Loader.Listing
import ModuleSystem.Proofs.Loader.Sessions
import ModuleSystem.Script.Host

/-!
# At most once

The hook of a module is called at most once and its body is started at most once. A URL gets another
record only after its module has been deleted, so the host is called at most once more for it than
there have been deletions. Imports of one URL between which it has not been deleted are about the
same record, and yield the same namespace.

## Main definitions

* `Store.hookCalls`, `Store.deletions` : how often the hook was called for a URL, and how often a
  module of it was deleted.
* `Machine.Imports` : an import of a URL is started.
* `Machine.Undisturbed` : nothing has happened to a URL in between.

## Main results

* `Machine.Run.calls_once` : all of this, in every run.
-/

namespace ModuleSystem.Loader

variable {C M : Type}

namespace Store

/-- How often the hook was called for modules of a URL. -/
def hookCalls (s : Store C) (url : Url) : Nat :=
  s.history.countP (s.IsHookCall url.href)

/-- How often a module of a URL was deleted, or another one defined in its place. -/
def deletions (s : Store C) (url : Url) : Nat :=
  s.history.countP (s.IsDeletion url.href)

section Counts

variable {s : Store C} {href : String} {e : Event} {url : Url} {r : RecordId}

theorem count_history (he : e.isMilestone = true) :
    s.history.count e = s.milestones.count e := by
  rw [milestones, List.count_filter he]

private theorem countP_history {p : Event → Bool} (h : ∀ e, p e = true → e.isMilestone = true) :
    s.history.countP p = s.milestones.countP p := by
  rw [milestones, List.countP_filter]
  refine List.countP_congr fun e _ => ?_
  rw [Bool.and_eq_true]
  exact ⟨fun he => ⟨he, h e he⟩, fun he => he.1⟩

/-- If no hook is called twice, a URL is asked for at most once for each of its records. -/
theorem countP_hookCalls_le
    (once : ∀ r, s.milestones.count (.hookCalled r) ≤ 1)
    (known : ∀ r, .hookCalled r ∈ s.milestones → r < s.records.size) :
    s.milestones.countP (s.IsHookCall href) ≤ s.recordsOf href := by
  have nodup : (s.milestones.filter (s.IsHookCall href)).Nodup := by
    refine List.nodup_iff_count_le_one.mpr fun e => ?_
    by_cases he : s.IsHookCall href e = true
    · rw [List.count_filter he]
      cases e with
      | hookCalled r => exact once r
      | _ => exact nomatch he
    · rw [List.count_eq_zero.mpr fun h => he (List.mem_filter.mp h).2]
      exact Nat.zero_le 1
  have sub : s.milestones.filter (s.IsHookCall href) ⊆
      ((List.range s.records.size).filter (s.IsOf href)).map Event.hookCalled := by
    intro e h
    obtain ⟨mem, of⟩ := List.mem_filter.mp h
    cases e with
    | hookCalled r =>
      refine List.mem_map_of_mem (List.mem_filter.mpr ⟨?_, of⟩)
      exact List.mem_range.mpr (known r mem)
    | _ => exact nomatch of
  rw [List.countP_eq_length_filter, recordsOf, List.countP_eq_length_filter]
  simpa using (List.subperm_of_subset nodup sub).length_le

/-- If no hook is called twice, a URL is asked for at most once more than it was deleted. -/
theorem Listed.hookCalls_le (listed : s.Listed)
    (once : ∀ r, s.milestones.count (.hookCalled r) ≤ 1)
    (known : ∀ r, .hookCalled r ∈ s.milestones → r < s.records.size) :
    s.hookCalls url ≤ s.deletions url + 1 := by
  have calls : s.hookCalls url = s.milestones.countP (s.IsHookCall url.href) :=
    countP_history fun e he => by
      cases e with
      | hookCalled r => rfl
      | _ => exact nomatch he
  have deleted : s.deletions url = s.milestones.countP (s.IsDeletion url.href) :=
    countP_history fun e he => by
      cases e with
      | deleted r => rfl
      | _ => exact nomatch he
  rw [calls, deleted]
  calc s.milestones.countP (s.IsHookCall url.href)
      ≤ s.recordsOf url.href := countP_hookCalls_le once known
    _ ≤ s.milestones.countP (s.IsDeletion url.href) +
          (s.registry.map Prod.fst).count url.href := listed.count url.href
    _ ≤ s.milestones.countP (s.IsDeletion url.href) + 1 :=
        Nat.add_le_add_left (List.nodup_iff_count_le_one.mp listed.keys url.href) _

end Counts

end Store

/-- The module of a handle, if the import has got that far. -/
def ImportHandle.module? : ImportHandle → Option RecordId
  | failed _ => none
  | executed module => some module
  | waiting module _ => some module

namespace Store

section Lookup

variable {s s' : Store C} {url url' : Url} {r : RecordId} {entries : List (String × Value)}

/-- A URL that is registered stays so while records are made for others. -/
theorem Creates.lookup (h : Creates s s') (found : s.lookup url = some r) :
    s'.lookup url = some r := by
  induction h with
  | refl => exact found
  | create _ url' referrer fresh ih =>
    rw [Store.lookup, create_same.2.2.2.2.2.2.1, List.lookup_append]
    rw [Store.lookup] at ih
    simp [ih]

theorem lookup_filter {α : Type} {key key' : String} (ne : key ≠ key')
    (entries : List (String × α)) :
    (entries.filter fun e => decide (e.1 ≠ key')).lookup key = entries.lookup key := by
  induction entries with
  | nil => rfl
  | cons e entries ih =>
    obtain ⟨k, x⟩ := e
    by_cases hk : k = key'
    · subst hk
      rw [List.filter_cons_of_neg (by simp), ih, List.lookup_cons, beq_false_of_ne ne]
    · rw [List.filter_cons_of_pos (by simpa using hk), List.lookup_cons, List.lookup_cons, ih]

/-- When a URL is deleted, a registered module stays so or is the one that is deleted. -/
theorem lookup_or_deleted (found : s.lookup url = some r) :
    (s.delete url').1.lookup url = some r ∨ .deleted r ∈ (s.delete url').1.milestones := by
  cases found' : s.lookup url' with
  | none =>
    rw [delete_of_lookup_none found']
    exact .inl found
  | some r' =>
    rw [delete_of_lookup found']
    by_cases hk : url.href = url'.href
    · refine .inr ?_
      rw [Store.lookup, hk] at found
      obtain rfl := Option.some.inj (found.symm.trans found')
      simp [Event.isMilestone]
    · refine .inl ?_
      rw [Store.lookup, note_same.2.2.2.2.2.2.1, (idle_silence _ _).registry]
      exact (lookup_filter hk s.registry).trans found

theorem lookup_define (found : (s.delete url').1.lookup url = some r) :
    (s.define url' entries).1.lookup url = some r := by
  rw [Store.lookup, registry_define, List.lookup_append]
  rw [Store.lookup] at found
  simp [found]

end Lookup

end Store

namespace Machine

open Store

/-- The next step starts an import of a URL, and this is its handle. -/
def Imports (host : Host C M) (m : Machine C M) (url : Url) (handle : ImportHandle) : Prop :=
  ∃ request referrer, m.control = .serve request ∧
    m.store.target? request = some (.ok (url, referrer)) ∧
    (m.step host).control = .reply (.started handle)

/-- Between two states of a run the loader is the same, and no module of a URL has been deleted. -/
structure Undisturbed (url : Url) (m m' : Machine C M) : Prop where
  loader : m'.store.retired = m.store.retired
  kept : ∀ e ∈ m'.store.history, m'.store.IsDeletion url.href e = true → e ∈ m.store.history

section Once

variable {host : Host C M} {ρ ρ' : Roles} {m m' m₁ m₂ : Machine C M}
  {trace : List (Machine C M)} {url : Url} {handle handle₁ handle₂ : ImportHandle}
  {r n₁ n₂ : RecordId}

/-- A step that starts an import gets or makes the record of the URL, and its handle. -/
theorem Imports.step (h : Imports host m url handle) : ∃ referrer,
    (m.step host).store =
      (importRecord (m.store.getOrCreate url referrer).1 (m.store.getOrCreate url referrer).2).1 ∧
    (importRecord (m.store.getOrCreate url referrer).1
      (m.store.getOrCreate url referrer).2).2 = handle := by
  obtain ⟨request, referrer, hc, target, next⟩ := h
  have starts : ∀ specifier referrer', m.store.resolve specifier referrer' = .ok url →
      m.step host = m.startImport specifier referrer' → ∃ referrer,
      (m.step host).store = (importRecord (m.store.getOrCreate url referrer).1
        (m.store.getOrCreate url referrer).2).1 ∧
      (importRecord (m.store.getOrCreate url referrer).1
        (m.store.getOrCreate url referrer).2).2 = handle := by
    intro specifier referrer' resolved same
    rw [same, startImport, resolved] at next
    rw [same, startImport, resolved]
    exact ⟨referrer', rfl, by cases next; rfl⟩
  cases request with
  | start specifier referrer' =>
    simp only [target?, Option.some.injEq] at target
    split_ifs at target with hasLoader
    cases resolved : m.store.resolve specifier referrer' with
    | error error => simp [resolved, Except.map] at target
    | ok url' =>
      simp only [resolved, Except.map, Except.ok.injEq, Prod.mk.injEq] at target
      obtain ⟨rfl, _⟩ := target
      refine starts specifier referrer' resolved ?_
      simp [Machine.step, hc, serve, hasLoader]
  | startFrom module specifier =>
    simp only [target?, Option.some.injEq] at target
    split_ifs at target with alive
    cases resolved : m.store.resolve specifier (some (m.store.record module).url) with
    | error error => simp [resolved, Except.map] at target
    | ok url' =>
      simp only [resolved, Except.map, Except.ok.injEq, Prod.mk.injEq] at target
      obtain ⟨rfl, _⟩ := target
      refine starts specifier _ resolved ?_
      simp [Machine.step, hc, serve, alive]
  | publish _ _ | poll _ | define _ _ | delete _ => cases target

/-- An import that is started in a computed run. -/
theorem Imports.of_hasIssued {request : Request} (hc : m.control = .serve request)
    (target : ((m.store.target? request).bind Except.toOption).map Prod.fst = some url)
    (issued : hasIssued [m.step host] handle = true) : Imports host m url handle := by
  obtain ⟨⟨_, referrer⟩, found, rfl⟩ := Option.map_eq_some_iff.mp target
  refine ⟨request, referrer, hc, ?_, ?_⟩
  · obtain ⟨result, found, ok⟩ := Option.bind_eq_some_iff.mp found
    cases result with
    | error _ => exact nomatch ok
    | ok _ => rw [found, Option.some.inj ok]
  · obtain ⟨_, mem, h⟩ := issued_of_hasIssued issued
    rwa [← List.mem_singleton.mp mem]

private theorem module?_importRecord {s : Store C} {r' : RecordId}
    (h : (importRecord s r').2.module? = some r) : r = r' := by
  rcases importRecord_cases s r' with ⟨_, _, h'⟩ | ⟨_, h'⟩ | ⟨_, _, h'⟩ | ⟨_, _, _, h'⟩ <;>
    rw [h'] at h
  · exact nomatch h
  all_goals exact (Option.some.inj h).symm

/-- After an import has been started, its module is registered under the URL. -/
theorem Imports.lookup (h : Imports host m url handle) (module : handle.module? = some r) :
    (m.step host).store.lookup url = some r := by
  obtain ⟨referrer, store, rfl⟩ := h.step
  obtain rfl := module?_importRecord module
  rw [store, Store.lookup, importRecord_same.2.2.2.1]
  cases found : m.store.lookup url with
  | some r =>
    rw [getOrCreate_of_lookup found]
    exact found
  | none =>
    rw [getOrCreate_of_lookup_none found, create_same.2.2.2.2.2.2.1, List.lookup_append]
    rw [Store.lookup] at found
    simp [found]

/-- An import of a URL that a module is registered under makes no record. -/
theorem Imports.step_of_lookup (h : Imports host m url handle) (found : m.store.lookup url = some r) :
    (m.step host).store = (importRecord m.store r).1 ∧ (importRecord m.store r).2 = handle := by
  obtain ⟨referrer, step⟩ := h.step
  rwa [getOrCreate_of_lookup found] at step

/-- If a module is registered under a URL, an import of the URL is about it. -/
theorem Imports.eq_of_lookup {r' : RecordId} (h : Imports host m url handle)
    (module : handle.module? = some r') (found : m.store.lookup url = some r) : r' = r := by
  obtain ⟨_, rfl⟩ := h.step_of_lookup found
  exact module?_importRecord module

/-- The handle of an import is that of a failed module, or of an executed one, or it waits. -/
theorem Imports.handle_cases (h : Imports host m url handle)
    (found : (m.step host).store.lookup url = some r) :
    (∃ error, handle = .failed error ∧ (m.step host).store.stateOf r = .failed error) ∨
      (handle = .executed r ∧ (m.step host).store.stateOf r = .executed) ∨
      ∃ j, handle = .waiting r j := by
  obtain ⟨referrer, store, rfl⟩ := h.step
  rw [store, Store.lookup, importRecord_same.2.2.2.1] at found
  cases lookup_getOrCreate.symm.trans found
  rw [store]
  rcases importRecord_cases (m.store.getOrCreate url referrer).1
    (m.store.getOrCreate url referrer).2 with
    ⟨error, state, h⟩ | ⟨state, h⟩ | ⟨j, _, h⟩ | ⟨_, _, _, h⟩ <;> rw [h]
  · exact .inl ⟨error, rfl, state⟩
  · exact .inr (.inl ⟨rfl, state⟩)
  · exact .inr (.inr ⟨j, rfl⟩)
  · exact .inr (.inr ⟨_, rfl⟩)

/-- A module stays registered under its URL until it is deleted. -/
theorem SoundStep.lookup (step : SoundStep host ρ ρ' m m') (found : m.store.lookup url = some r) :
    m'.store.lookup url = some r ∨ .deleted r ∈ m'.store.milestones := by
  have quiet : m'.store.registry = m.store.registry → m'.store.lookup url = some r := fun h => by
    rw [Store.lookup, h]
    exact found
  cases step.rule.news with
  | none _ registry _ | hookCalled _ _ _ _ registry _ | bodyStarted _ _ _ _ registry _
      | bodyEnded _ _ _ registry _ | changed _ _ _ registry _ | called _ _ _ registry _ =>
    exact .inl (quiet registry)
  | made idle creates _ registry _ _ =>
    refine .inl ?_
    rw [Store.lookup, registry]
    exact creates.lookup (by rwa [Store.lookup, idle.registry])
  | deleted _ store =>
    rw [store]
    exact lookup_or_deleted found
  | defined _ _ store =>
    rw [store]
    rcases lookup_or_deleted found with kept | deleted
    · exact .inl (lookup_define kept)
    · exact .inr (by simp [deleted])

/-- A module has been registered under a URL, and it is still there unless it has been deleted or its
loader is dropped. -/
private structure Since (m : Machine C M) (url : Url) (r : RecordId) : Prop where
  known : r < m.store.records.size
  named : (m.store.record r).url.href = url.href
  kept : m.store.lookup url = some r ∨ .deleted r ∈ m.store.milestones ∨ r < m.store.retired

private theorem stable_since : Stable host fun _ m => Since m url r where
  step := fun _ step ⟨known, named, kept⟩ => by
    refine ⟨Nat.lt_of_lt_of_le known step.rule.size_records_le, ?_, ?_⟩
    · rw [(step.rule.recordChange known).url_eq, named]
    · rcases kept with found | deleted | gone
      · exact (step.lookup found).imp_right .inl
      · exact .inr (.inl (step.rule.mem_milestones deleted))
      · exact .inr (.inr (by rwa [step.rule.retired]))
  pause := fun _ pause ⟨known, named, kept⟩ => by
    have same := pause.change.kept
    refine ⟨by rwa [same.size_records], by rw [same.record, named], ?_⟩
    rcases same.loader with ⟨registry, retired⟩ | ⟨_, retired⟩
    · rwa [Store.lookup, registry, same.milestones, retired]
    · exact .inr (.inr (by rwa [retired]))

/-- A module stays registered under its URL as long as nothing happens to the URL. -/
theorem Traced.lookup_of_undisturbed {earlier : List (Machine C M)} (h : Traced host ρ (m₂ :: trace))
    (below : m₁ :: earlier <:+ m₂ :: trace) (found : m₁.store.lookup url = some r)
    (undisturbed : Undisturbed url m₁ m₂) : m₂.store.lookup url = some r := by
  obtain ⟨_, traced, kept⟩ := h.persists below
  have mem : (url.href, r) ∈ m₁.store.registry := by
    obtain ⟨_, _, split, _⟩ := List.lookup_eq_some_iff.mp found
    simp [split]
  obtain ⟨known, of⟩ := traced.listed.entries _ mem
  simp only [IsOf, Bool.and_eq_true, isAlive_eq_true, beq_iff_eq] at of
  have since : Since m₂ url r := kept _ stable_since ⟨known, of.2, .inl found⟩
  have alive : m₂.store.retired ≤ r := by
    rw [undisturbed.loader]
    exact of.1
  rcases since.kept with found | deleted | gone
  · exact found
  · have deletion : m₂.store.IsDeletion url.href (.deleted r) = true := by
      simp [IsDeletion, IsOf, isAlive_eq_true.mpr alive, since.named]
    have before := undisturbed.kept _ (List.mem_filter.mp deleted).1 deletion
    exact absurd rfl ((traced.listed.deleted r (List.mem_filter.mpr ⟨before, rfl⟩)).2 _ mem)
  · exact absurd alive (Nat.not_le_of_lt gone)

/-- A machine that is not at rest makes a step next. -/
theorem Traced.step_of_busy {later earlier : List (Machine C M)}
    (h : Traced host ρ (m₂ :: (later ++ m₁ :: earlier))) (busy : m₁.reply? = none) :
    Rule host m₁ (m₁.step host) ∧
      m₁.step host :: m₁ :: earlier <:+ m₂ :: (later ++ m₁ :: earlier) := by
  induction later generalizing m₂ ρ with
  | nil =>
    cases h with
    | step _ step =>
      rw [← step.next]
      exact ⟨step.rule, List.suffix_refl _⟩
    | outside _ pause =>
      have rests := pause.rests
      rw [busy] at rests
      exact nomatch rests
  | cons m later ih =>
    cases h with
    | step traced _ | outside traced _ =>
      exact (ih traced).imp_right fun below => below.trans (List.suffix_cons _ _)

theorem Undisturbed.of_step {m₁' : Machine C M} (h : Undisturbed url m₁ m₂)
    (rule : Rule host m₁ m₁') : Undisturbed url m₁' m₂ := by
  refine ⟨h.loader.trans rule.retired.symm, fun e mem deletion => ?_⟩
  have milestone : e.isMilestone = true := by
    cases e with
    | deleted _ => rfl
    | _ => exact nomatch deletion
  exact (List.mem_filter.mp
    (rule.mem_milestones (List.mem_filter.mpr ⟨h.kept e mem deletion, milestone⟩))).1

theorem Imports.busy (h : Imports host m url handle) : m.reply? = none := by
  obtain ⟨_, _, hc, _⟩ := h
  simp [reply?, hc]

/-- Two imports of a URL that nothing happens to in between are about the same module. -/
private theorem Traced.same_module {before between : List (Machine C M)}
    (h : Traced host ρ (m₂ :: (between ++ m₁ :: before)))
    (imports₁ : Imports host m₁ url handle₁) (imports₂ : Imports host m₂ url handle₂)
    (undisturbed : Undisturbed url m₁ m₂) (module₁ : handle₁.module? = some n₁)
    (module₂ : handle₂.module? = some n₂) : n₁ = n₂ := by
  obtain ⟨rule, below⟩ := h.step_of_busy imports₁.busy
  have found := h.lookup_of_undisturbed below (imports₁.lookup module₁) (undisturbed.of_step rule)
  exact (imports₂.eq_of_lookup module₂ found).symm

/-- The module in the handle of an import that ends well is the one that it yields. -/
theorem Traced.module?_of_yields (h : Traced host ρ trace) (yields : Yields trace handle r) :
    handle.module? = some r := by
  rcases h.yields yields with rfl | ⟨j, rfl⟩ <;> rfl

/-- In every run the hook of a module is called at most once, and its body is started at most once.
So a URL is asked for at most once more than its modules have been deleted. And all imports of a URL
that are started with no deletion of it in between, and that end well, yield the same module. -/
theorem Run.calls_once (h : Run host (m :: trace)) :
    (∀ r, m.store.history.count (.hookCalled r) ≤ 1 ∧
      m.store.history.count (.bodyStarted r) ≤ 1) ∧
    (∀ url, m.store.hookCalls url ≤ m.store.deletions url + 1) ∧
    ∀ {url m₁ m₂ before between handle₁ handle₂ n₁ n₂},
      m₂ :: (between ++ m₁ :: before) <:+ m :: trace →
      Imports host m₁ url handle₁ → Imports host m₂ url handle₂ → Undisturbed url m₁ m₂ →
      Yields (m :: trace) handle₁ n₁ → Yields (m :: trace) handle₂ n₂ → n₁ = n₂ := by
  obtain ⟨ρ, traced⟩ := h.exists_roles
  have hooks := traced.hooks
  refine ⟨fun r => ⟨?_, ?_⟩, fun url => ?_, ?_⟩
  · rw [count_history rfl]
    exact hooks.once r
  · rw [count_history rfl]
    exact traced.bodies.once r
  · exact traced.listed.hookCalls_le hooks.once hooks.known
  · intro url m₁ m₂ before between handle₁ handle₂ n₁ n₂ part imports₁ imports₂ undisturbed
      yields₁ yields₂
    obtain ⟨ρ', traced'⟩ := traced.suffix part nofun
    exact traced'.same_module imports₁ imports₂ undisturbed (traced.module?_of_yields yields₁)
      (traced.module?_of_yields yields₂)

end Once

section Lone

/-- The URL of a module that imports nothing. -/
def lone : Url := { scheme := "x", path := "lone" }

/-- A new loader whose host has one module, which has a body. -/
def loneLoader : Machine Script.Code Script.Memory where
  store := { base := none
             resolver := { importMap := some { imports := [("lone", lone)], scopes := [] } } }
  memory := { library := .programs [("x:lone", { body := some (.steps []) })] }

/-- An import of the module is started, and polled until it ends. -/
def loneImport : List (Machine Script.Code Script.Memory) :=
  session Script.host 100 [.request (.poll (.waiting 0 2))]
    [loneLoader.request (.start "lone" none), loneLoader]

/-- A second import of the module is started, which follows on the first one. -/
def loneAgain : Machine Script.Code Script.Memory :=
  (loneImport.headD loneLoader).request (.start "lone" none)

/-- Both imports, the second one being polled too. -/
def loneImports : List (Machine Script.Code Script.Memory) :=
  session Script.host 100 [.request (.poll (.executed 0))] (loneAgain :: loneImport)

/-- The state after both imports. -/
def loneEnd : Machine Script.Code Script.Memory := loneImports.headD loneLoader

theorem Run.calls_once_lone : ∃ before between,
    Run Script.host (loneEnd :: loneImports.tail) ∧
    loneAgain :: (between ++ loneLoader.request (.start "lone" none) :: before) <:+
      loneEnd :: loneImports.tail ∧
    Imports Script.host (loneLoader.request (.start "lone" none)) lone (.waiting 0 2) ∧
    Imports Script.host loneAgain lone (.executed 0) ∧
    Undisturbed lone (loneLoader.request (.start "lone" none)) loneAgain ∧
    loneEnd.store.history.count (.hookCalled 0) = 1 ∧
    loneEnd.store.history.count (.bodyStarted 0) = 1 ∧
    loneEnd.store.hookCalls lone ≤ loneEnd.store.deletions lone + 1 ∧ (0 : RecordId) = 0 := by
  obtain ⟨between, part⟩ : [loneLoader.request (.start "lone" none), loneLoader] <:+ loneImport :=
    suffix_session ..
  have again : loneAgain :: loneImport <:+ loneImports := suffix_session ..
  have states : loneImports = loneEnd :: loneImports.tail := session_eq ..
  have rests : (loneImport.headD loneLoader).reply?.isSome := by decide +kernel
  have run₁ : Run Script.host loneImport :=
    .session (.outside (.start none _ _) rfl (.requests _)) ..
  have run₂ : Run Script.host (loneAgain :: loneImport) := by
    have same : loneImport = loneImport.headD loneLoader :: loneImport.tail := session_eq ..
    rw [same] at run₁ ⊢
    exact .outside run₁ rests (.requests _)
  have run : Run Script.host (loneEnd :: loneImports.tail) := states ▸ run₂.session ..
  rw [← part, states] at again
  have imports₁ : Imports Script.host (loneLoader.request (.start "lone" none)) lone
      (.waiting 0 2) := .of_hasIssued rfl (by decide +kernel) (by decide +kernel)
  have imports₂ : Imports Script.host loneAgain lone (.executed 0) :=
    .of_hasIssued rfl (by decide +kernel) (by decide +kernel)
  have undisturbed : Undisturbed lone (loneLoader.request (.start "lone" none)) loneAgain :=
    ⟨by decide +kernel, by decide +kernel⟩
  have yields₁ : Yields (loneEnd :: loneImports.tail) (.waiting 0 2) 0 :=
    states ▸ yields_of_hasEnded (by decide +kernel)
  have yields₂ : Yields (loneEnd :: loneImports.tail) (.executed 0) 0 :=
    states ▸ yields_of_hasEnded (by decide +kernel)
  obtain ⟨_, calls, same⟩ := Run.calls_once run
  exact ⟨_, between, run, again, imports₁, imports₂, undisturbed, by decide +kernel,
    by decide +kernel, calls lone, same again imports₁ imports₂ undisturbed yields₁ yields₂⟩

end Lone

end Machine

end ModuleSystem.Loader
