import ModuleSystem.Proofs.Loader.Updates

/-!
# The setters that listen to a module

The setters that listen to a module stand in the order in which they were handed over to it. A step
hands over some more, or takes back those of a module that is deleted (`Machine.Rule.listening`). As
each setter is handed over once, no setter is there twice.

While the setters of a module are being handed over, none of them is taken back. So those that
listen to a dependency at the end are the ones for this dependency, in the order of the dependencies
(`Machine.Traced.handed`).

## Main definitions

* `Store.heard` : the setters among those for some dependencies that are for one module.

## Main results

* `Machine.Traced.nodup_importerSetters` : no setter listens to a module twice, in any run.
-/

namespace ModuleSystem.Loader

variable {C M : Type}

/-- The setters among some that listen to a module, in order. -/
def Record.listening (r : Record C) (setters : List (Option SetterId)) : List SetterId :=
  r.importerSetters.filter fun x => some x ∈ setters

namespace Store

/-- The setters that come to listen to a module when some dependencies have been handed theirs. -/
def heard (d : RecordId) (dependencies : List Dependency) : List SetterId :=
  (dependencies.filter fun dependency => dependency.module = d).filterMap Dependency.setter

section Listening

variable {s : Store C} {d r : RecordId} {x : SetterId} {dependencies dependencies' : List Dependency}
  {url : Url} {entries : List (String × Value)}

theorem mem_heard : x ∈ heard d dependencies ↔ ⟨d, some x⟩ ∈ dependencies := by
  simp only [heard, List.mem_filterMap, List.mem_filter, decide_eq_true_eq]
  constructor
  · rintro ⟨⟨module, setter⟩, ⟨mem, rfl⟩, rfl⟩
    exact mem
  · exact fun mem => ⟨_, ⟨mem, rfl⟩, rfl⟩

/-- Setters that come to listen are among the others if their dependencies are. -/
theorem listening_append {r r' : Record C}
    (setters : r'.importerSetters = r.importerSetters ++ heard d dependencies)
    (own : ∀ dependency ∈ dependencies, dependency ∈ dependencies') :
    r'.listening (dependencies'.map Dependency.setter) =
      r.listening (dependencies'.map Dependency.setter) ++ heard d dependencies := by
  rw [Record.listening, setters, List.filter_append]
  congr 1
  refine List.filter_eq_self.mpr fun x mem => decide_eq_true ?_
  exact List.mem_map_of_mem (own _ (mem_heard.mp mem))

theorem heard_append (d : RecordId) (dependencies dependencies' : List Dependency) :
    heard d (dependencies ++ dependencies') = heard d dependencies ++ heard d dependencies' := by
  rw [heard, List.filter_append, List.filterMap_append]
  rfl

/-- Setters of which no two are the same come to listen at different places. -/
theorem nodup_heard (distinct : (dependencies.filterMap Dependency.setter).Nodup) :
    (heard d dependencies).Nodup :=
  distinct.sublist (List.filter_sublist.filterMap _)

/-- Setters come to listen to a module after those that did so before. -/
theorem importerSetters_listen (known : d < s.records.size) :
    ((dependencies.foldl listen s).record d).importerSetters =
      (s.record d).importerSetters ++ heard d dependencies := by
  induction dependencies generalizing s with
  | nil => exact (List.append_nil _).symm
  | cons dependency rest ih =>
    obtain ⟨module, setter⟩ := dependency
    have known' : d < (s.listen ⟨module, setter⟩).records.size := by
      rwa [(idle_listen _ _).size_records]
    have first : heard d (⟨module, setter⟩ :: rest) = heard d [⟨module, setter⟩] ++ heard d rest :=
      heard_append d [_] rest
    rw [List.foldl_cons, ih known', first]
    cases setter with
    | none => by_cases same : module = d <;> simp [listen, heard, same]
    | some y =>
      by_cases same : d = module
      · subst same
        simp [listen, heard, record_update_self known]
      · simp [listen, heard, record_update_of_ne same, Ne.symm same]

/-- Setters that are taken back listen no more. -/
private theorem importerSetters_unlisten (setters : List (RecordId × Option SetterId)) :
    ((setters.foldl unlisten s).record d).importerSetters =
      (s.record d).importerSetters.filter fun x => (d, some x) ∉ setters := by
  induction setters generalizing s with
  | nil => simp
  | cons setter rest ih =>
    obtain ⟨module, y⟩ := setter
    have one : ((s.unlisten (module, y)).record d).importerSetters =
        (s.record d).importerSetters.filter fun x => (d, some x) ≠ (module, y) := by
      cases y with
      | none => simp [unlisten]
      | some y =>
        by_cases same : d = module
        · subst same
          rcases Nat.lt_or_ge d s.records.size with lt | ge
          · simp [unlisten, record_update_self lt]
          · rw [unlisten, record_of_size_le (by simpa using ge), record_of_size_le ge]
            rfl
        · simp [unlisten, record_update_of_ne same, same]
    rw [List.foldl_cons, ih, one, List.filter_filter]
    refine List.filter_congr fun x _ => ?_
    simp [and_comm]

/-- Deleting a module takes back the setters that have been handed over for it. -/
theorem importerSetters_delete : ∃ p : SetterId → Bool,
    ((s.delete url).1.record d).importerSetters = (s.record d).importerSetters.filter p ∧
    ∀ x, p x = false → ∃ (r : RecordId) (i : Nat), (s.record r).dependencies[i]? = some d ∧
      (s.record r).dependencySetters[i]? = some (some x) := by
  cases found : s.lookup url with
  | none =>
    rw [delete_of_lookup_none found]
    exact ⟨fun _ => true, by simp, fun _ h => nomatch h⟩
  | some r =>
    have kept : (((s.unregister url).update r fun x => { x with dependencySetters := [] }).record
        d).importerSetters = (s.record d).importerSetters :=
      record_update_keeps Record.importerSetters fun _ => rfl
    rw [delete_of_lookup found]
    refine ⟨_, (importerSetters_unlisten _).trans (by rw [kept]), fun x taken => ?_⟩
    have mem : (d, some x) ∈ ((s.unregister url).record r).dependencies.zip
        ((s.unregister url).record r).dependencySetters := by simpa using taken
    obtain ⟨i, at'⟩ := List.mem_iff_getElem?.mp mem
    obtain ⟨dependency, setter⟩ := List.getElem?_zip_eq_some.mp at'
    exact ⟨r, i, dependency, setter⟩

end Listening

end Store

namespace Machine

open Store

/-- How the setters that listen to a module change in a step. -/
inductive Listening (m m' : Machine C M) (d : RecordId) : Prop
  | same (setters : (m'.store.record d).importerSetters = (m.store.record d).importerSetters)
  /-- The setters of a module that is deleted are taken back. -/
  | fewer {p : SetterId → Bool}
      (setters : (m'.store.record d).importerSetters = (m.store.record d).importerSetters.filter p)
      (taken : ∀ x, p x = false → ∃ (r : RecordId) (i : Nat),
        (m.store.record r).dependencies[i]? = some d ∧
        (m.store.record r).dependencySetters[i]? = some (some x))
  | more {r dependencies now left} (hands : Hands m m' r dependencies now left)
      (setters : (m'.store.record d).importerSetters =
        (m.store.record d).importerSetters ++ heard d now)

section Steps

variable {host : Host C M} {ρ ρ' : Roles} {m m' : Machine C M} {trace : List (Machine C M)}
  {s : Store C} {st : List (Frame C)} {r r' d : RecordId} {x : SetterId} {dependency : Dependency}
  {dependencies dependencies' now before rest left left' done : List Dependency}

theorem HandsOver.importerSetters (sequenced : m.Sequenced) (sound : m.Sound ρ)
    (way : HandsOver m.store m.stack m.control r dependencies (now ++ left) s st) :
    ((now.foldl listen s).record d).importerSetters =
      (m.store.record d).importerSetters ++ heard d now := by
  rw [← way.still.record]
  rcases Nat.lt_or_ge d s.records.size with lt | ge
  · exact importerSetters_listen lt
  · -- nothing is handed over to a module that is not there
    have none : heard d now = [] := List.eq_nil_iff_forall_not_mem.mpr fun x mem => by
      obtain ⟨_, _, _, known⟩ := way.awaits sound.control
      have suffix := sequenced.left r dependencies _ (way.carries sound)
      obtain ⟨_, instantiates⟩ :=
        known _ (suffix.subset (List.mem_append_left _ (mem_heard.mp mem)))
      have lt := (sound.store.instantiation_eq instantiates).1
      rw [way.still.size_records] at ge
      exact absurd lt (Nat.not_lt_of_le ge)
    have size : (now.foldl listen s).records.size ≤ d := by
      rwa [(idle_foldl idle_listen _ _).size_records]
    rw [none, List.append_nil, record_of_size_le size, record_of_size_le ge]

theorem HandsOn.importerSetters (hands : HandsOn m m' r dependencies before dependency left)
    (sequenced : m.Sequenced) (sound : m.Sound ρ) :
    (m'.store.record d).importerSetters =
      (m.store.record d).importerSetters ++ heard d (before ++ [dependency]) := by
  obtain ⟨way, _, _, after⟩ := hands
  rw [List.append_cons] at way
  rw [after.still.record]
  exact way.importerSetters sequenced sound

theorem Attaches.importerSetters (attaches : Attaches m m' r dependencies rest)
    (sequenced : m.Sequenced) (sound : m.Sound ρ) :
    (m'.store.record d).importerSetters =
      (m.store.record d).importerSetters ++ heard d rest := by
  obtain ⟨way, _, store⟩ := attaches
  rw [← List.append_nil rest] at way
  rw [store, record_attach_keeps Record.importerSetters fun _ _ _ _ => rfl]
  exact way.importerSetters sequenced sound

theorem SoundStep.listening (step : SoundStep host ρ ρ' m m') (sequenced : m.Sequenced)
    (d : RecordId) : Listening m m' d := by
  cases step.rule.notice with
  | mute store _ => exact .same (store.record d).importerSetters
  | adopts _ _ store =>
    exact .same (by rw [store, record_adopt_keeps Record.importerSetters fun _ _ _ _ => rfl])
  | publishes _ after way =>
    refine .same ?_
    rw [way.still.record, after, note_same.1,
      record_publish_keeps Record.importerSetters fun _ _ _ => rfl]
  | hands hands =>
    exact .more (hands.hands sequenced step.sound) (hands.importerSetters sequenced step.sound)
  | attaches attaches =>
    exact .more (attaches.hands sequenced step.sound)
      (attaches.importerSetters sequenced step.sound)
  | deletes store _ =>
    obtain ⟨p, setters, taken⟩ := importerSetters_delete (s := m.store) (d := d)
    exact .fewer (by rw [store, setters]) taken
  | @defines url _ store _ =>
    by_cases new : d = m.store.records.size
    · subst new
      obtain ⟨bindings, record⟩ := record_define_new
      exact .same (by rw [store, record, record_of_size_le (Nat.le_refl _)]; rfl)
    · obtain ⟨p, setters, taken⟩ := importerSetters_delete (s := m.store) (d := d)
      exact .fewer (by rw [store, record_define_of_ne new, setters]) taken
  | calls _ _ _ _ _ store | settles _ store | rests _ store _ => exact .same (by rw [store]; rfl)
  | drops _ _ _ _ record _ _ => exact .same (by rw [record])

/-- The setter of a dependency of a module that is being linked has its place there. -/
theorem Carries.placed (carries : m.Carries r dependencies left) {i : Nat}
    (setter : dependencies[i]? = some ⟨d, some x⟩) : m.Placed x r i := by
  rcases Nat.lt_or_ge (i + left.length) dependencies.length with handed | later
  · exact .inr ⟨d, .carried carries setter handed⟩
  · exact .inl (.carried carries setter later)

/-- The setters of a module that is being linked are distinct. -/
theorem Placement.distinct (placement : m.Placement) (carries : m.Carries r dependencies left) :
    (dependencies.filterMap Dependency.setter).Nodup := by
  refine List.pairwise_filterMap.mpr (List.pairwise_iff_getElem.mpr fun i j hi hj less x hx y hy => ?_)
  rintro rfl
  have place : ∀ {k} (hk : k < dependencies.length), dependencies[k].setter = some x →
      m.Placed x r k := fun hk setter =>
    carries.placed (by rw [List.getElem?_eq_getElem hk, ← setter])
  have same := (placement.unique x r i r j (place hi hx) (place hj hy)).2
  omega

/-- No setter listens to a module twice, in any run. -/
theorem Traced.nodup_importerSetters (h : Traced host ρ (m :: trace)) (d : RecordId) :
    (m.store.record d).importerSetters.Nodup := by
  refine h.invariant (P := fun _ m => (m.store.record d).importerSetters.Nodup)
    (fun _ _ _ => by rw [record_start]; exact List.nodup_nil) (fun traced step nodup => ?_)
    (fun _ pause nodup => pause.change.kept.record ▸ nodup)
  cases step.listening traced.sequenced d with
  | same setters => rwa [setters]
  | fewer setters _ =>
    rw [setters]
    exact nodup.filter _
  | @more r dependencies now left hands setters =>
    have placement := traced.placement
    have part : now.Sublist dependencies := (List.sublist_append_left now left).trans
      (traced.sequenced.left r _ _ hands.carries).sublist
    have distinct := (placement.distinct hands.carries).sublist (part.filterMap _)
    rw [setters]
    refine List.nodup_append.mpr ⟨nodup, nodup_heard distinct, fun x listens y mem same => ?_⟩
    subst same
    obtain ⟨i, waits, _⟩ := hands.place traced.sequenced (mem_heard.mp mem)
    exact placement.waits x r i d waits (.inl listens)

/-- The setters that are handed over in a step belong to another module than one whose own are left
as they were. -/
theorem Hands.not_mem (hands : Hands m m' r' dependencies' now left')
    (placement : m.Placement) (sequenced : m.Sequenced) (sound : m.Sound ρ) (sound' : m'.Sound ρ')
    (staged' : m'.Staged ρ') (before : m.Carries r dependencies left)
    (after : m'.Carries r dependencies left) (mem : x ∈ heard d now) :
    some x ∉ dependencies.map Dependency.setter := by
  intro own
  obtain ⟨⟨d', _⟩, own, rfl⟩ := List.mem_map.mp own
  obtain ⟨i, setter⟩ := List.mem_iff_getElem?.mp own
  have mem := mem_heard.mp mem
  obtain ⟨i', waits, _⟩ := hands.place sequenced mem
  obtain ⟨rfl, _⟩ := placement.unique x r i r' i' (before.placed setter) (.inl waits)
  obtain ⟨rfl, same⟩ := sound.carries_unique before hands.carries
  have pos : 0 < now.length := List.length_pos_of_mem mem
  rcases hands.goesOn with carries | ⟨_, attached, _⟩
  · have same' := (sound'.carries_unique after carries).2
    rw [same', List.self_eq_append_left] at same
    rw [same] at mem
    exact nomatch mem
  · refine sound'.not_linked_of_carries after (staged'.dependencies r fun empty => ?_)
    rw [attached, List.map_eq_nil_iff] at empty
    rw [empty] at setter
    exact nomatch setter

/-- While a module has the same setters left to hand over, those that listen stay the same. -/
private theorem SoundStep.listening_eq (step : SoundStep host ρ ρ' m m')
    (traced : Traced host ρ (m :: trace)) (before : m.Carries r dependencies left)
    (after : m'.Carries r dependencies left) :
    (m'.store.record d).listening (dependencies.map Dependency.setter) =
      (m.store.record d).listening (dependencies.map Dependency.setter) := by
  have placement := traced.placement
  rw [Record.listening, Record.listening]
  cases step.listening traced.sequenced d with
  | same setters => rw [setters]
  | fewer setters taken =>
    -- what is taken back belongs to a module that is linked already
    rw [setters, List.filter_filter]
    refine List.filter_congr fun x _ => ?_
    rw [Bool.and_eq_left_iff_imp, decide_eq_true_eq]
    intro own
    by_contra off
    obtain ⟨r', i', dependency, setter⟩ := taken x (by simpa using off)
    obtain ⟨⟨d', _⟩, own, rfl⟩ := List.mem_map.mp own
    obtain ⟨i, own⟩ := List.mem_iff_getElem?.mp own
    obtain ⟨rfl, _⟩ := placement.unique x r i r' i' (before.placed own)
      (.inr ⟨d, .attached dependency setter⟩)
    refine step.sound.not_linked_of_carries before (traced.staged.dependencies r fun empty => ?_)
    rw [empty] at dependency
    exact nomatch dependency
  | @more _ _ now _ hands setters =>
    have others : (heard d now).filter (fun x => some x ∈ dependencies.map Dependency.setter) =
        [] := List.filter_eq_nil_iff.mpr fun x mem own =>
      hands.not_mem placement traced.sequenced step.sound step.sound' (traced.step step).staged
        before after mem (of_decide_eq_true own)
    rw [setters, List.filter_append, others, List.append_nil]

/-- Before a module has handed over any of its setters, none of them listens. -/
private theorem Placement.listening_eq_nil (placement : m.Placement)
    (carries : m.Carries r dependencies dependencies) :
    (m.store.record d).listening (dependencies.map Dependency.setter) = [] := by
  refine List.filter_eq_nil_iff.mpr fun x listens own => ?_
  obtain ⟨⟨d', _⟩, own, rfl⟩ := List.mem_map.mp (of_decide_eq_true own)
  obtain ⟨i, setter⟩ := List.mem_iff_getElem?.mp own
  refine placement.waits x r i d (.carried carries setter ?_) (.inl listens)
  exact Nat.le_add_left _ _

/-- While the setters of a module are being handed over, those that listen to a dependency are the
ones for it that have been handed over so far, in order. -/
theorem Traced.handed (h : Traced host ρ (m :: trace)) (d : RecordId)
    (carries : m.Carries r dependencies left) (split : dependencies = done ++ left) :
    (m.store.record d).listening (dependencies.map Dependency.setter) = heard d done := by
  refine h.invariant (P := fun _ m => ∀ r dependencies done left,
    m.Carries r dependencies left → dependencies = done ++ left →
      (m.store.record d).listening (dependencies.map Dependency.setter) = heard d done)
    (fun _ _ _ _ _ _ _ carries => absurd carries not_carries_start)
    (fun {_ _ m m' _} traced step ih r dependencies done left carries split => ?_)
    (fun _ pause ih r dependencies done left carries split => ?_) r dependencies done left carries
    split
  · cases step.carried carries with
    | same before =>
      exact (step.listening_eq traced before carries).trans (ih r dependencies done left before split)
    | resolved _ _ all _ _ =>
      have none : done = [] := by
        rw [all] at split
        exact List.self_eq_append_left.mp split
      rw [all] at carries
      rw [none]
      exact (traced.step step).placement.listening_eq_nil carries
    | @hands now dependency hands =>
      have before := (hands.hands traced.sequenced step.sound).carries
      obtain ⟨earlier, whole⟩ := traced.sequenced.left r _ _ before
      have all : earlier ++ (now ++ [dependency]) = done := by
        rw [split, ← List.append_assoc] at whole
        exact List.append_cancel_right whole
      rw [← all, heard_append, ← ih r dependencies earlier _ before whole.symm]
      refine listening_append (hands.importerSetters traced.sequenced step.sound)
        fun _ mem => ?_
      rw [← whole]
      exact List.mem_append_right _ (List.mem_append_left _ mem)
  · rw [pause.change.kept.record]
    exact ih r dependencies done left (carries.of_pause pause) split

/-- When a module has been linked, its setters that listen to a dependency are the ones for it, in
order. -/
theorem Traced.attached (h : Traced host ρ (m :: trace)) (d : RecordId)
    (attaches : Attaches m m' r dependencies rest) :
    (m'.store.record d).listening (dependencies.map Dependency.setter) = heard d dependencies := by
  have carries := (attaches.hands h.sequenced h.sound).carries
  rw [List.append_nil] at carries
  obtain ⟨earlier, whole⟩ := h.sequenced.left r _ _ carries
  have setters := attaches.importerSetters (d := d) h.sequenced h.sound
  rw [listening_append setters fun dependency mem => whole ▸ List.mem_append_right _ mem,
    h.handed d carries whole.symm, ← heard_append, whole]

end Steps

end Machine

end ModuleSystem.Loader
