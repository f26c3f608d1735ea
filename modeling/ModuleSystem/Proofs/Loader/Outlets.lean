import ModuleSystem.Proofs.Loader.Flow

/-!
# Exports and setters in a step

Most steps have nothing to do with exports, or with the setters that are told of them
(`Store.Mute`). This file says what the others do (`Machine.Notice`): exports are published, the
setters of a module are registered, handed over to its dependencies or taken back, and notifications
are delivered.

What is delivered at the moment can be seen from the activities under way
(`Machine.deliveries`): the queue is worked off by one of them, and a setter runs above it.

## Main results

* `Machine.Rule.notice` : what a step does to exports and setters.
* `Machine.Rule.outlet` : what it does to those of one module.
-/

namespace ModuleSystem.Loader

variable {C M : Type}

/-! ### Stores -/

namespace Record

/-- What a record has to do with exports is as before, but for setters that have been pending. -/
structure SameOutlet (r r' : Record C) : Prop where
  bindings : r'.bindings = r.bindings
  hasExported : r'.hasExported = false → r.hasExported = false
  dependencies : r'.dependencies = r.dependencies
  pendingSetters : r'.pendingSetters = r.pendingSetters ∨ r'.pendingSetters = []
  dependencySetters : r'.dependencySetters = r.dependencySetters
  importerSetters : r'.importerSetters = r.importerSetters

theorem SameOutlet.refl (r : Record C) : r.SameOutlet r :=
  ⟨rfl, id, rfl, .inl rfl, rfl, rfl⟩

theorem SameOutlet.trans {r₁ r₂ r₃ : Record C} (h : r₁.SameOutlet r₂) (h' : r₂.SameOutlet r₃) :
    r₁.SameOutlet r₃ where
  bindings := h'.bindings.trans h.bindings
  hasExported := fun fresh => h.hasExported (h'.hasExported fresh)
  dependencies := h'.dependencies.trans h.dependencies
  pendingSetters := by
    rcases h'.pendingSetters with same | none
    · rw [same]
      exact h.pendingSetters
    · exact .inr none
  dependencySetters := h'.dependencySetters.trans h.dependencySetters
  importerSetters := h'.importerSetters.trans h.importerSetters

theorem sameOutlet_enter (r : Record C) (state : ModuleState) : r.SameOutlet (r.enter state) := by
  unfold enter
  split <;> exact ⟨rfl, id, rfl, .inl rfl, rfl, rfl⟩

theorem sameOutlet_poison (r : Record C) (error : LoaderError) : r.SameOutlet (r.poison error) := by
  unfold poison
  split
  · exact .refl r
  · exact .refl r
  · exact ⟨rfl, id, rfl, .inr rfl, rfl, rfl⟩

/-- Exports that change nothing leave the bindings as they are. -/
theorem sameOutlet_exportAll {r : Record C} {entries : List (String × Value)}
    (same : (r.exportAll entries).2 = false) : r.SameOutlet (r.exportAll entries).1 := by
  have unchanged : ∀ (fixed : Bool) (entries : List (String × Value)) (state : Bindings × Bool),
      (entries.foldl (Bindings.writeUnlessNew fixed) state).2 = false →
      state.2 = false ∧ (entries.foldl (Bindings.writeUnlessNew fixed) state).1 = state.1 := by
    intro fixed entries
    induction entries with
    | nil => exact fun state h => ⟨h, rfl⟩
    | cons entry entries ih =>
      intro state h
      obtain ⟨now, later⟩ := ih _ h
      rw [List.foldl_cons, later]
      simp only [Bindings.writeUnlessNew, Bindings.write] at now ⊢
      split_ifs at now ⊢ with new same
      · exact ⟨now, rfl⟩
      · exact ⟨by simpa using now, rfl⟩
      · simp at now
  exact ⟨(unchanged _ entries (r.bindings, false) same).2, nofun, rfl, .inl rfl, rfl, rfl⟩

/-- What a record has to do with exports is as before, but for the setters that listen to it and for
its own setters that have been given up. -/
structure Keeps (r r' : Record C) : Prop where
  bindings : r'.bindings = r.bindings
  hasExported : r'.hasExported = false → r.hasExported = false
  dependencies : r'.dependencies = r.dependencies
  pendingSetters : r'.pendingSetters = r.pendingSetters ∨ r'.pendingSetters = []
  dependencySetters : r'.dependencySetters = r.dependencySetters ∨ r'.dependencySetters = []

theorem SameOutlet.keeps {r r' : Record C} (h : r.SameOutlet r') : r.Keeps r' :=
  ⟨h.bindings, h.hasExported, h.dependencies, h.pendingSetters, .inl h.dependencySetters⟩

end Record

/-- Whether an event is that a notification was queued, or taken from the queue. -/
def Event.isDispatch : Event → Bool
  | raised _ _ | called _ _ | skipped _ _ => true
  | _ => false

namespace Store

/-- What has happened to notifications, the latest first. -/
def dispatches (s : Store C) : List Event :=
  s.history.filter Event.isDispatch

/-- Between two stores neither setters nor notifications have changed. -/
structure SamePace (s s' : Store C) : Prop where
  queue : s'.queue = s.queue
  draining : s'.draining = s.draining
  setters : s'.setters = s.setters
  dispatches : s'.dispatches = s.dispatches

/-- Between two stores nothing has happened to exports and setters. -/
structure Mute (s s' : Store C) : Prop extends SamePace s s' where
  record : ∀ r, (s.record r).SameOutlet (s'.record r)

section Mute

variable {s s₁ s₂ s₃ : Store C} {r : RecordId} {j : JobId} {g : GroupId} {l : Listener}
  {f : Record C → Record C}

theorem SamePace.refl (s : Store C) : SamePace s s :=
  ⟨rfl, rfl, rfl, rfl⟩

theorem SamePace.trans (h : SamePace s₁ s₂) (h' : SamePace s₂ s₃) : SamePace s₁ s₃ where
  queue := h'.queue.trans h.queue
  draining := h'.draining.trans h.draining
  setters := h'.setters.trans h.setters
  dispatches := h'.dispatches.trans h.dispatches

theorem Mute.refl (s : Store C) : Mute s s :=
  ⟨.refl s, fun _ => .refl _⟩

theorem Mute.trans (h : Mute s₁ s₂) (h' : Mute s₂ s₃) : Mute s₁ s₃ :=
  ⟨h.toSamePace.trans h'.toSamePace, fun r => (h.record r).trans (h'.record r)⟩

theorem mute_of_record (record : s₁.record = s.record) (queue : s₁.queue = s.queue)
    (draining : s₁.draining = s.draining) (setters : s₁.setters = s.setters)
    (dispatches : s₁.dispatches = s.dispatches) : Mute s s₁ :=
  ⟨⟨queue, draining, setters, dispatches⟩, fun _ => record ▸ .refl _⟩

theorem mute_update (h : (s.record r).SameOutlet (f (s.record r))) : Mute s (s.update r f) := by
  refine ⟨⟨rfl, rfl, rfl, rfl⟩, fun r' => ?_⟩
  by_cases hr : r' = r
  · subst hr
    rcases Nat.lt_or_ge r' s.records.size with lt | ge
    · rw [record_update_self lt]
      exact h
    · rw [record_of_size_le ge, record_of_size_le (by simpa using ge)]
      exact .refl _
  · rw [record_update_of_ne hr]
    exact .refl _

theorem dispatches_note {e : Event} : (s.note e).dispatches =
    if e.isDispatch then e :: s.dispatches else s.dispatches :=
  List.filter_cons

theorem mute_note (s : Store C) (e : Event) (quiet : e.isDispatch = false := by rfl) :
    Mute s (s.note e) :=
  mute_of_record rfl rfl rfl rfl (by simp [dispatches_note, quiet])

theorem mute_enter (s : Store C) (r : RecordId) (state : ModuleState) :
    Mute s (s.enter r state) := by
  have entered : Mute s (s.update r fun x => x.enter state) :=
    mute_update (Record.sameOutlet_enter _ _)
  unfold enter
  dsimp only
  split_ifs
  · exact entered
  · exact entered.trans (mute_note _ _)

theorem mute_fail (s : Store C) (r : RecordId) (error : LoaderError) :
    Mute s (s.fail r error).1 := by
  have failed : Mute s (s.update r fun x => x.poison error) :=
    mute_update (Record.sameOutlet_poison _ _)
  unfold fail
  dsimp only
  split_ifs
  · exact failed
  · exact failed.trans (mute_note _ _)

theorem mute_setEvaluation (s : Store C) (r : RecordId) (job : Option JobId) :
    Mute s (s.setEvaluation r job) :=
  mute_update ⟨rfl, id, rfl, .inl rfl, rfl, rfl⟩

theorem mute_takeTurn (s : Store C) (r : RecordId) : Mute s (s.takeTurn r) :=
  (mute_enter s r .executing).trans (mute_update ⟨rfl, id, rfl, .inl rfl, rfl, rfl⟩)

theorem mute_giveUpPending (s : Store C) (r : RecordId) :
    Mute s (s.update r fun x => { x with pendingSetters := [] }) :=
  mute_update ⟨rfl, id, rfl, .inr rfl, rfl, rfl⟩

theorem mute_setJob (s : Store C) (j : JobId) (state : JobState C) : Mute s (s.setJob j state) :=
  mute_of_record rfl rfl rfl rfl rfl

theorem mute_newJob (s : Store C) (state : JobState C) : Mute s (s.newJob state).1 :=
  mute_of_record rfl rfl rfl rfl rfl

theorem mute_subscribe (s : Store C) (j : JobId) (l : Listener) : Mute s (s.subscribe j l) := by
  unfold subscribe
  split_ifs
  · exact .refl s
  · exact mute_of_record rfl rfl rfl rfl rfl

theorem mute_setGroup (s : Store C) (g : GroupId) (group : Group) : Mute s (s.setGroup g group) :=
  mute_of_record rfl rfl rfl rfl rfl

theorem mute_newGroup (s : Store C) (n : Nat) : Mute s (s.newGroup n).1 :=
  mute_of_record rfl rfl rfl rfl rfl

theorem mute_tellWithin (fuel : Nat) (ls : List Listener) (s : Store C) :
    Mute s (s.tellWithin fuel ls) := by
  induction fuel, ls, s using tellWithin.induct with
  | case1 fuel s =>
    rw [tellWithin]
    exact .refl s
  | case2 _ _ s => exact .refl s
  | case3 fuel others s ih => exact ih
  | case4 fuel j others s ih =>
    have silenced : Mute s (s.updateJob j Job.silence) := mute_of_record rfl rfl rfl rfl rfl
    exact silenced.trans ih
  | case5 fuel g i others s x caller h ih =>
    simp only [tellWithin, h]
    exact (mute_setGroup s g x).trans ih

theorem mute_finish (s : Store C) (j : JobId) (outcome : Outcome) : Mute s (s.finish j outcome) := by
  have ended : Mute s (((s.updateJob j Job.silence).setJob j (.finished outcome)).note (.finished j)) :=
    mute_of_record rfl rfl rfl rfl rfl
  exact ended.trans (mute_tellWithin _ _ _)

theorem mute_await (s : Store C) (signal : Option String) (l : Listener) :
    Mute s (signal.elim s fun name => s.await name l) := by
  cases signal with
  | none => exact .refl s
  | some name =>
    simp only [Option.elim_some, await]
    split_ifs
    · exact .refl s
    · exact mute_of_record rfl rfl rfl rfl rfl

theorem mute_settle (s : Store C) (g : GroupId) (i : Nat) (outcome : Option Outcome)
    (l : Listener) : Mute s (s.settle g i outcome l) := by
  unfold settle
  split
  · exact mute_setGroup ..
  · exact mute_setGroup ..
  · dsimp only
    split_ifs
    · exact ((mute_setGroup ..).trans (mute_note _ _)).trans (mute_tellWithin _ _ _)
    · exact mute_setGroup ..

theorem mute_create (s : Store C) (url : Url) (referrer : Option Url) :
    Mute s (s.create url referrer) := by
  refine ⟨⟨rfl, rfl, rfl, rfl⟩, fun r => ?_⟩
  rw [record_create]
  split_ifs with hr
  · rw [record_of_size_le (Nat.le_of_eq hr.symm)]
    exact ⟨rfl, fun _ => rfl, rfl, .inl rfl, rfl, rfl⟩
  · exact .refl _

theorem Creates.mute (h : Creates s s₁) : Mute s s₁ := by
  induction h with
  | refl => exact .refl s
  | create _ url referrer _ ih => exact ih.trans (mute_create _ url referrer)

theorem mute_importRecord (s : Store C) (r : RecordId) : Mute s (Machine.importRecord s r).1 := by
  unfold Machine.importRecord
  dsimp only
  split
  · exact .refl s
  · exact .refl s
  · split
    · exact .refl s
    · exact (mute_newJob s _).trans (mute_update ⟨rfl, id, rfl, .inl rfl, rfl, rfl⟩)

/-! Setters that are handed over or taken back. -/

theorem samePace_foldl {α : Type} {f : Store C → α → Store C} (h : ∀ s x, SamePace s (f s x))
    (xs : List α) (s : Store C) : SamePace s (xs.foldl f s) := by
  induction xs generalizing s with
  | nil => exact .refl s
  | cons x xs ih => exact (h s x).trans (ih (f s x))

theorem samePace_listen (s : Store C) (dependency : Dependency) :
    SamePace s (s.listen dependency) := by
  unfold listen
  split <;> exact ⟨rfl, rfl, rfl, rfl⟩

theorem samePace_attach (s : Store C) (r : RecordId) (dependencies : List Dependency) :
    SamePace s (s.attach r dependencies) := by
  refine SamePace.trans ?_ (mute_enter _ r .linked).toSamePace
  exact ⟨rfl, rfl, rfl, rfl⟩

theorem samePace_delete (s : Store C) (url : Url) : SamePace s (s.delete url).1 := by
  have unlistened : ∀ (s : Store C) (dependency : RecordId × Option SetterId),
      SamePace s (s.unlisten dependency) := by
    intro s dependency
    unfold unlisten
    split <;> exact ⟨rfl, rfl, rfl, rfl⟩
  cases h : s.lookup url with
  | none =>
    rw [delete_of_lookup_none h]
    exact .refl s
  | some r =>
    rw [delete_of_lookup h]
    have taken : SamePace s
        ((s.unregister url).update r fun x => { x with dependencySetters := [] }) :=
      ⟨rfl, rfl, rfl, rfl⟩
    have silenced : SamePace s ((s.unregister url).silence r) :=
      taken.trans (samePace_foldl unlistened _ _)
    exact silenced.trans (mute_note _ _).toSamePace

theorem samePace_define (s : Store C) (url : Url) (entries : List (String × Value)) :
    SamePace s (s.define url entries).1 := by
  obtain ⟨bindings, h⟩ := define_eq s url entries
  have deleted := samePace_delete s url
  rw [h]
  exact ⟨deleted.queue, deleted.draining, deleted.setters, deleted.dispatches⟩

end Mute

/-! ### Setters that are registered -/

/-- Registering setters adds them to the others, each with its own number; they do not run. -/
structure AddsSetters (s s' : Store C) (ids : List (Option SetterId)) : Prop where
  queue : s'.queue = s.queue
  draining : s'.draining = s.draining
  size : s.setters.size ≤ s'.setters.size
  old : ∀ x, x < s.setters.size → s'.setters[x]? = s.setters[x]?
  idle : ∀ x code, s.setters.size ≤ x → s'.setters[x]? = some code → code.isRunning = false
  new : ∀ x, some x ∈ ids → s.setters.size ≤ x ∧ x < s'.setters.size
  once : ∀ (i i' : Nat) (x : SetterId), ids[i]? = some (some x) → ids[i']? = some (some x) → i = i'

theorem addsSetters (setters : List (Option (RecordId → C))) (s : Store C) :
    AddsSetters s (s.addSetters setters).1 (s.addSetters setters).2 := by
  induction setters generalizing s with
  | nil =>
    refine ⟨rfl, rfl, Nat.le_refl _, fun _ _ => rfl, fun x code hx known => ?_, fun x hx => ?_,
      fun i i' x hi _ => ?_⟩
    · rw [addSetters, Array.getElem?_eq_none hx] at known
      cases known
    · cases hx
    · cases hi
  | cons setter rest ih =>
    cases setter with
    | none =>
      obtain ⟨queue, draining, size, old, idle, new, once⟩ := ih s
      refine ⟨queue, draining, size, old, idle, fun x hx => ?_, fun i i' x hi hi' => ?_⟩
      · rcases List.mem_cons.mp hx with same | hx
        · cases same
        · exact new x hx
      · cases i with
        | zero => cases hi
        | succ i =>
          cases i' with
          | zero => cases hi'
          | succ i' => rw [once i i' x hi hi']
    | some run =>
      obtain ⟨queue, draining, size, old, idle, new, once⟩ :=
        ih { s with setters := s.setters.push { run } }
      simp only [Array.size_push] at size old idle new
      have fresh : ∀ i, (addSetters { s with setters := s.setters.push { run } } rest).2[i]? ≠
          some (some s.setters.size) := fun i hi =>
        Nat.not_succ_le_self _ (new _ (List.mem_of_getElem? hi)).1
      refine ⟨queue, draining, Nat.le_of_succ_le size, fun x hx => ?_, fun x code hx known => ?_,
        fun x hx => ?_, fun i i' x hi hi' => ?_⟩
      · refine (old x (Nat.lt_succ_of_lt hx)).trans ?_
        rw [Array.getElem?_push, if_neg (Nat.ne_of_lt hx)]
      · rcases Nat.lt_or_eq_of_le hx with hx | rfl
        · exact idle x code hx known
        · have first := (old s.setters.size (Nat.lt_succ_self _)).symm.trans known
          simp only [Array.getElem?_push_size, Option.some.injEq] at first
          rw [← first]
      · rcases List.mem_cons.mp hx with hx | hx
        · rw [Option.some.inj hx]
          exact ⟨Nat.le_refl _, size⟩
        · exact ⟨Nat.le_of_succ_le (new x hx).1, (new x hx).2⟩
      · cases i with
        | zero =>
          cases i' with
          | zero => rfl
          | succ i' =>
            rw [← Option.some.inj (Option.some.inj hi)] at hi'
            exact absurd hi' (fresh i')
        | succ i =>
          cases i' with
          | zero =>
            rw [← Option.some.inj (Option.some.inj hi')] at hi
            exact absurd hi (fresh i)
          | succ i' => rw [once i i' x hi hi']

/-! ### Setters that listen -/

section Listening

variable {s : Store C} {d r : RecordId} {x : SetterId} {dependencies : List Dependency} {url : Url}
  {entries : List (String × Value)}

/-- Setters that are handed over change nothing else. -/
theorem record_listen_keeps {α : Type} (p : Record C → α)
    (h : ∀ (r : Record C) xs, p { r with importerSetters := xs } = p r) :
    p ((dependencies.foldl listen s).record r) = p (s.record r) := by
  induction dependencies generalizing s with
  | nil => rfl
  | cons dependency rest ih =>
    rw [List.foldl_cons, ih, listen]
    split
    · rfl
    · exact record_update_keeps p fun _ => h _ _

/-- A dependency knows the setters that it knew before, and those that are handed over to it. -/
theorem mem_importerSetters_listen :
    x ∈ ((dependencies.foldl listen s).record d).importerSetters ↔
      x ∈ (s.record d).importerSetters ∨ d < s.records.size ∧ ⟨d, some x⟩ ∈ dependencies := by
  induction dependencies generalizing s with
  | nil => simp
  | cons dependency rest ih =>
    obtain ⟨module, setter⟩ := dependency
    rw [List.foldl_cons, ih, (idle_listen _ _).size_records]
    cases setter with
    | none => simp [listen]
    | some y =>
      by_cases same : d = module
      · subst same
        by_cases known : d < s.records.size
        · simp [listen, record_update_self known, known, or_assoc]
        · simp [listen, record_of_size_le (Nat.le_of_not_lt known), record_of_size_le
            (s := s.update d _) (by simpa using known), known]
      · simp [listen, record_update_of_ne same, same]

private theorem record_unlisten_keeps {α : Type} (p : Record C → α)
    (h : ∀ (r : Record C) xs, p { r with importerSetters := xs } = p r)
    (setters : List (RecordId × Option SetterId)) :
    p ((setters.foldl unlisten s).record r) = p (s.record r) := by
  induction setters generalizing s with
  | nil => rfl
  | cons setter rest ih =>
    rw [List.foldl_cons, ih, unlisten]
    split
    · rfl
    · exact record_update_keeps p fun _ => h _ _

/-- Setters that are taken back are known no more, the others are. -/
private theorem mem_importerSetters_unlisten (setters : List (RecordId × Option SetterId)) :
    (x ∈ ((setters.foldl unlisten s).record d).importerSetters →
      x ∈ (s.record d).importerSetters) ∧
    (x ∈ (s.record d).importerSetters →
      x ∈ ((setters.foldl unlisten s).record d).importerSetters ∨ some x ∈ setters.map Prod.snd) := by
  induction setters generalizing s with
  | nil => exact ⟨id, .inl⟩
  | cons setter rest ih =>
    obtain ⟨back, forth⟩ := ih (s := s.unlisten setter)
    obtain ⟨module, y⟩ := setter
    cases y with
    | none => exact ⟨back, fun h => (forth h).imp_right (List.mem_cons_of_mem _)⟩
    | some y =>
      have one : ((s.unlisten (module, some y)).record d).importerSetters =
            (s.record d).importerSetters.filter (fun z => z ≠ y) ∨
          ((s.unlisten (module, some y)).record d).importerSetters =
            (s.record d).importerSetters := by
        simp only [unlisten]
        by_cases same : d = module
        · subst same
          by_cases known : d < s.records.size
          · exact .inl (by rw [record_update_self known])
          · refine .inr ?_
            rw [record_of_size_le (by simpa using known), record_of_size_le (Nat.le_of_not_lt known)]
        · exact .inr (by rw [record_update_of_ne same])
      constructor
      · intro h
        have mem := back h
        rcases one with one | one <;> rw [one] at mem
        · exact (List.mem_filter.mp mem).1
        · exact mem
      · intro h
        by_cases same : x = y
        · exact .inr (by simp [same])
        · refine (forth ?_).imp_right (List.mem_cons_of_mem _)
          rcases one with one | one <;> rw [one]
          · exact List.mem_filter.mpr ⟨h, by simpa using same⟩
          · exact h

/-- Deleting a module changes no more than which setters are known. -/
theorem record_delete_keeps {α : Type} (p : Record C → α)
    (h : ∀ (r : Record C) xs, p { r with importerSetters := xs } = p r)
    (h' : ∀ (r : Record C) xs, p { r with dependencySetters := xs } = p r) :
    p ((s.delete url).1.record r) = p (s.record r) := by
  cases found : s.lookup url with
  | none => rw [delete_of_lookup_none found]
  | some module =>
    rw [delete_of_lookup found]
    refine (record_unlisten_keeps p h _).trans ?_
    exact record_update_keeps p fun _ => h' _ _

/-- Deleting a module takes back its setters only. -/
theorem mem_importerSetters_delete :
    (x ∈ ((s.delete url).1.record d).importerSetters → x ∈ (s.record d).importerSetters) ∧
    (x ∈ (s.record d).importerSetters → x ∈ ((s.delete url).1.record d).importerSetters ∨
      ∃ (r : RecordId) (i : Nat) (d' : RecordId), .deleted r ∈ (s.delete url).1.milestones ∧
        (s.record r).dependencies[i]? = some d' ∧
        (s.record r).dependencySetters[i]? = some (some x)) := by
  cases found : s.lookup url with
  | none =>
    rw [delete_of_lookup_none found]
    exact ⟨id, .inl⟩
  | some r =>
    have deleted : .deleted r ∈ (s.delete url).1.milestones := by
      rw [milestones_delete found]
      exact List.mem_cons_self
    have kept : (((s.unregister url).update r fun x => { x with dependencySetters := [] }).record
        d).importerSetters = (s.record d).importerSetters :=
      record_update_keeps Record.importerSetters fun _ => rfl
    have taken := mem_importerSetters_unlisten
      (s := (s.unregister url).update r fun x => { x with dependencySetters := [] }) (d := d) (x := x)
      ((s.record r).dependencies.zip (s.record r).dependencySetters)
    rw [kept] at taken
    obtain ⟨back, forth⟩ := taken
    rw [delete_of_lookup found] at deleted ⊢
    refine ⟨back, fun h => (forth h).imp_right fun mem => ?_⟩
    obtain ⟨⟨d', _⟩, mem, rfl⟩ := List.mem_map.mp mem
    obtain ⟨i, at'⟩ := List.mem_iff_getElem?.mp mem
    obtain ⟨dependency, setter⟩ := List.getElem?_zip_eq_some.mp at'
    exact ⟨r, i, d', deleted, dependency, setter⟩

/-- A module that is deleted has no setters left with its dependencies. -/
theorem dependencySetters_delete_self (found : s.lookup url = some r) :
    ((s.delete url).1.record r).dependencySetters = [] := by
  rw [delete_of_lookup found]
  refine (record_unlisten_keeps Record.dependencySetters (fun _ _ => rfl) _).trans ?_
  by_cases known : r < (s.unregister url).records.size
  · rw [record_update_self known]
  · rw [record_of_size_le (by simpa using known)]
    rfl

theorem dependencySetters_delete_of_ne {module : RecordId} (found : s.lookup url = some module)
    (ne : r ≠ module) :
    ((s.delete url).1.record r).dependencySetters = (s.record r).dependencySetters := by
  rw [delete_of_lookup found]
  refine (record_unlisten_keeps Record.dependencySetters (fun _ _ => rfl) _).trans ?_
  rw [record_update_of_ne ne]
  rfl

theorem dependencySetters_delete :
    ((s.delete url).1.record r).dependencySetters = (s.record r).dependencySetters ∨
      ((s.delete url).1.record r).dependencySetters = [] := by
  cases found : s.lookup url with
  | none =>
    rw [delete_of_lookup_none found]
    exact .inl rfl
  | some module =>
    by_cases same : r = module
    · exact .inr (dependencySetters_delete_self (same ▸ found))
    · exact .inl (dependencySetters_delete_of_ne found same)

private theorem not_mem_importerSetters_unlisten {setters : List (RecordId × Option SetterId)}
    (mem : (d, some x) ∈ setters) :
    x ∉ ((setters.foldl unlisten s).record d).importerSetters := by
  induction setters generalizing s with
  | nil => exact nomatch mem
  | cons setter rest ih =>
    rw [List.foldl_cons]
    rcases List.mem_cons.mp mem with rfl | mem
    · -- what has been taken back stays so
      refine fun listens => absurd ((mem_importerSetters_unlisten rest).1 listens) ?_
      rw [unlisten]
      rcases Nat.lt_or_ge d s.records.size with lt | ge
      · simp [record_update_self lt]
      · rw [record_of_size_le (by simpa using ge)]
        exact List.not_mem_nil
    · exact ih mem

/-- A setter that still listens to a dependency of its module when a module has been deleted is still
known to have been handed over to it. -/
theorem dependencySetters_delete_of_listens {i : Nat}
    (dependency : (s.record r).dependencies[i]? = some d)
    (setter : (s.record r).dependencySetters[i]? = some (some x))
    (listens : x ∈ ((s.delete url).1.record d).importerSetters) :
    ((s.delete url).1.record r).dependencySetters[i]? = some (some x) := by
  cases found : s.lookup url with
  | none => rwa [delete_of_lookup_none found]
  | some module =>
    by_cases same : r = module
    · subst same
      rw [delete_of_lookup found] at listens
      have mem : (d, some x) ∈ (s.record r).dependencies.zip (s.record r).dependencySetters :=
        List.mem_of_getElem? (List.getElem?_zip_eq_some.mpr ⟨dependency, setter⟩)
      exact absurd listens (not_mem_importerSetters_unlisten mem)
    · rwa [dependencySetters_delete_of_ne found same]

/-- Exports that are published change nothing else. -/
theorem record_publish_keeps {α : Type} (p : Record C → α)
    (h : ∀ (x : Record C) bindings hasExported, p { x with bindings, hasExported } = p x) :
    p ((s.update r fun _ => ((s.record r).exportAll entries).1).record d) = p (s.record d) := by
  by_cases hd : d = r
  · subst hd
    rcases Nat.lt_or_ge d s.records.size with lt | ge
    · rw [record_update_self lt]
      exact h (s.record d) _ _
    · rw [record_of_size_le (by simpa using ge), record_of_size_le ge]
  · rw [record_update_of_ne hd]

/-- Setters that are registered change nothing else. -/
theorem record_adopt_keeps {α : Type} {registration : Registration C} (p : Record C → α)
    (h : ∀ (x : Record C) specifiers pendingSetters body,
      p { x with specifiers, pendingSetters, body } = p x) :
    p ((s.adopt r registration).record d) = p (s.record d) := by
  rw [adopt]
  refine (record_update_keeps p fun x => h x _ _ _).trans ?_
  rw [addSetters_same.1]

/-- A module that is linked has changed in nothing else. -/
theorem record_attach_keeps {α : Type} (p : Record C → α)
    (h : ∀ (x : Record C) dependencies dependencySetters state,
      p { x with dependencies, dependencySetters, state } = p x) :
    p ((s.attach r dependencies).record d) = p (s.record d) := by
  by_cases hd : d = r
  · subst hd
    rcases Nat.lt_or_ge d s.records.size with lt | ge
    · rw [record_attach_self lt, Record.enter]
      split <;> exact h (s.record d) _ _ _
    · rw [record_of_size_le (by simpa using ge), record_of_size_le ge]
  · rw [record_attach_of_ne hd]

theorem keeps_listen : (s.record r).Keeps ((dependencies.foldl listen s).record r) where
  bindings := record_listen_keeps Record.bindings fun _ _ => rfl
  hasExported fresh := (record_listen_keeps Record.hasExported fun _ _ => rfl).symm.trans fresh
  dependencies := record_listen_keeps Record.dependencies fun _ _ => rfl
  pendingSetters := .inl (record_listen_keeps Record.pendingSetters fun _ _ => rfl)
  dependencySetters := .inl (record_listen_keeps Record.dependencySetters fun _ _ => rfl)

theorem keeps_delete : (s.record r).Keeps ((s.delete url).1.record r) where
  bindings := record_delete_keeps Record.bindings (fun _ _ => rfl) fun _ _ => rfl
  hasExported fresh :=
    (record_delete_keeps Record.hasExported (fun _ _ => rfl) fun _ _ => rfl).symm.trans fresh
  dependencies := record_delete_keeps Record.dependencies (fun _ _ => rfl) fun _ _ => rfl
  pendingSetters := .inl (record_delete_keeps Record.pendingSetters (fun _ _ => rfl) fun _ _ => rfl)
  dependencySetters := dependencySetters_delete

/-- Defining a module does to the others what deleting one does. -/
theorem record_define_of_ne (h : r ≠ s.records.size) :
    (s.define url entries).1.record r = (s.delete url).1.record r := by
  obtain ⟨bindings, hd⟩ := define_eq s url entries
  rw [hd, record_register, if_neg (by simpa using h), newJob_same.1]

end Listening

end Store

namespace Machine

open Store

/-! ### Deliveries -/

/-- The activities that deliver notifications, the innermost first: the setters that run, and what
works off the queue. -/
def deliveries : List (Frame C) → List (Option SetterId)
  | [] => []
  | .draining :: st => none :: deliveries st
  | .setter setter :: st => some setter :: deliveries st
  | _ :: st => deliveries st

section Ways

variable {s s₁ : Store C} {st st' : List (Frame C)} {c c' : Control C} {r : RecordId}
  {dependencies rest : List Dependency} {children : List LinkNode} {jobs : List JobId}
  {group : GroupId} {seen : List RecordId}

theorem Joins.mute (way : Joins s st c r dependencies group s₁ st') :
    Mute s s₁ ∧ deliveries st' = deliveries st := by
  cases way with
  | starts l => exact ⟨mute_setGroup .., rfl⟩
  | settles l => exact ⟨mute_settle .., rfl⟩

theorem HandsOver.mute (way : HandsOver s st c r dependencies rest s₁ st') :
    Mute s s₁ ∧ deliveries st' = deliveries st := by
  cases way with
  | resumes => exact ⟨.refl s, rfl⟩
  | starts way => exact way.mute

theorem Gathers.mute (way : Gathers s st c r children group seen s₁ st') :
    Mute s s₁ ∧ deliveries st' = deliveries st := by
  cases way with
  | starts l => exact ⟨mute_setGroup .., rfl⟩
  | waits l | ends l | fails l => exact ⟨mute_settle .., rfl⟩

theorem Collects.mute (way : Collects s st c r jobs group s₁ st') :
    Mute s s₁ ∧ deliveries st' = deliveries st := by
  cases way with
  | starts l => exact ⟨mute_setGroup .., rfl⟩
  | settles l => exact ⟨mute_settle .., rfl⟩

theorem Turn.deliveries_eq {rest : List RecordId} (way : Turn s st c r rest jobs seen st') :
    deliveries st' = deliveries st := by
  cases way <;> rfl

theorem Move.deliveries_eq (h : Move s st c st' c') : deliveries st' = deliveries st := by
  cases h
  case turnVisits way => exact way.deliveries_eq
  case unwinds frame h h' h'' =>
    cases frame
    case setter x => exact absurd rfl (h x)
    case draining => exact absurd rfl h''
    all_goals rfl
  all_goals rfl

end Ways

/-! ### Steps -/

/-- The last setters of a module are handed over, and the module is linked. -/
inductive Attaches (m m' : Machine C M) (r : RecordId) (dependencies rest : List Dependency) : Prop
  | intro {s} (way : HandsOver m.store m.stack m.control r dependencies rest s m'.stack)
      (silent : ∀ d ∈ rest, d.setter ≠ none → ¬ (m.store.record d.module).IsVisible)
      (store : m'.store = (rest.foldl listen s).attach r dependencies)

/-- What a step does to exports and setters. -/
inductive Notice (m m' : Machine C M) : Prop
  | mute (store : Mute m.store m'.store) (stack : deliveries m'.stack = deliveries m.stack)
  /-- The hook of a module has registered its setters. -/
  | adopts {r code registration} (stack : m.stack = .hook r :: m'.stack)
      (control : m.control = .host code) (store : m'.store = m.store.adopt r registration)
  /-- Exports have been published that change the bindings of a module. -/
  | publishes {r entries s} (control : m.control = .serve (.publish r entries))
      (after : s = (m.store.update r fun _ => ((m.store.record r).exportAll entries).1).note
        (.changed r))
      (way : Propagates s (m.store.record r).importerSetters r (.publishing :: m.stack) m'.store
        m'.stack m'.control)
  /-- Some setters of a module have been handed over, the last of which is to be called. -/
  | hands {r dependencies before dependency rest}
      (hands : HandsOn m m' r dependencies before dependency rest)
  | attaches {r dependencies rest} (attaches : Attaches m m' r dependencies rest)
  | deletes {url} (store : m'.store = (m.store.delete url).1) (stack : m'.stack = m.stack)
  | defines {url entries} (store : m'.store = (m.store.define url entries).1)
      (stack : m'.stack = m.stack)
  /-- A notification has been taken from the queue and its setter called. -/
  | calls {x r queue code st} (queued : m.store.queue = (x, r) :: queue)
      (known : m.store.setters[x]? = some code) (idle : code.isRunning = false)
      (top : m.stack = .draining :: st) (stack : m'.stack = .setter x :: m.stack)
      (store : m'.store =
        ((m.store.setQueue queue m.store.draining).markSetter x true).note (.called x r))
  /-- A notification has been taken from the queue whose setter cannot be called. -/
  | drops {x r st} (queued : m.store.queue = (x, r) :: m'.store.queue)
      (busy : ∀ code, m.store.setters[x]? = some code → code.isRunning = true)
      (top : m.stack = .draining :: st) (stack : m'.stack = m.stack)
      (record : m'.store.record = m.store.record) (draining : m'.store.draining = m.store.draining)
      (setters : m'.store.setters = m.store.setters)
  /-- A setter has ended, or given up. -/
  | settles {x} (stack : m.stack = .setter x :: m'.stack)
      (store : m'.store = m.store.markSetter x false)
  /-- The queue has been worked off, or given up. -/
  | rests (stack : m.stack = .draining :: m'.stack) (store : m'.store = m.store.setQueue [] false)
      (done : m.store.queue = [] ∨ m.control = .unwind)

section Steps

variable {host : Host C M} {m m' : Machine C M}

theorem Rule.notice (h : Rule host m m') : Notice m m' := by
  cases h
  case move h => exact .mute (.refl _) h.deliveries_eq
  case asks | givesUp => exact .mute (.refl _) rfl
  case hookWaits | bodyWaits => exact .mute (mute_await ..) rfl
  case setterWaits | setterEnds | setterAborted => exact .settles rfl rfl
  case hookOrphaned | hookTooLate => exact .mute (.refl _) rfl
  case hookFails => exact .mute (mute_fail ..) rfl
  case hookEnds => exact .adopts rfl rfl rfl
  case bodyOrphaned => exact .mute (mute_note ..) rfl
  case bodyEnds =>
    exact .mute (((mute_note ..).trans (mute_setEvaluation ..)).trans (mute_enter ..)) rfl
  case bodyFails after _ =>
    subst after
    exact .mute (((mute_note ..).trans (mute_setEvaluation ..)).trans (mute_fail ..)) rfl
  case publishesSame same => exact .mute (mute_update (Record.sameOutlet_exportAll same)) rfl
  case publishes after way => exact .publishes rfl after way
  case starts => exact .mute ((creates_getOrCreate ..).mute.trans (mute_importRecord ..)) rfl
  case defines => exact .defines rfl rfl
  case deletes => exact .deletes rfl rfl
  case drained h => exact .rests rfl rfl (.inl h)
  case drainAborted => exact .rests rfl rfl (.inr rfl)
  case forgets h unknown =>
    exact .drops h (fun code known => nomatch unknown.symm.trans known) rfl rfl rfl rfl rfl
  case skips h known running =>
    refine .drops h (fun code known' => ?_) rfl rfl rfl rfl rfl
    rw [← Option.some.inj (known.symm.trans known')]
    exact running
  case calls h known idle => exact .calls h known idle rfl rfl rfl
  case pollRunning => exact .mute (mute_subscribe ..) rfl
  case pollWaiting => exact .mute ((mute_subscribe ..).trans (mute_setJob ..)) rfl
  case putsAside | jobAborted => exact .mute (mute_setJob ..) rfl
  case endsJob => exact .mute (mute_finish ..) rfl
  case callsHook => exact .mute ((mute_enter ..).trans (mute_note ..)) rfl
  case unresolved resolved =>
    exact .mute (((mute_giveUpPending ..).trans (creates_resolveDependencies resolved).mute).trans
      (mute_fail ..)) rfl
  case resolves resolved =>
    exact .mute (((mute_giveUpPending ..).trans (creates_resolveDependencies resolved).mute).trans
      (mute_newGroup ..)) rfl
  case joins way _ => exact .mute (way.mute.1.trans (mute_setGroup ..)) way.mute.2
  case joinWaits way _ _ | joinOrphaned way _ _ _ => exact .mute way.mute.1 way.mute.2
  case joinFails way _ _ _ _ => exact .mute (way.mute.1.trans (mute_fail ..)) way.mute.2
  case handsOver silent way listens after =>
    rw [way.still.record] at silent
    exact .hands (.intro way silent listens after)
  case handedOver silent way =>
    rw [way.still.record] at silent
    exact .attaches (.intro way silent rfl)
  case nodeLinked => exact .mute (mute_newGroup ..) rfl
  case gathers way _ _ => exact .mute (way.mute.1.trans (mute_setGroup ..)) way.mute.2
  case gatherWaits way _ _ _ | gathered way _ _ | gatherOrphaned way _ _ =>
    exact .mute way.mute.1 way.mute.2
  case gatherFails way _ _ => exact .mute (way.mute.1.trans (mute_fail ..)) way.mute.2
  case turnDeferred way _ =>
    exact .mute (((mute_newGroup ..).trans (mute_newJob ..)).trans (mute_setEvaluation ..))
      way.deliveries_eq
  case turnComes way =>
    exact .mute ((mute_takeTurn ..).trans (mute_newJob ..)) way.deliveries_eq
  case attemptWaits => exact .mute (mute_setEvaluation ..) rfl
  case visitFails => exact .mute (mute_fail ..) rfl
  case collects way _ _ => exact .mute (way.mute.1.trans (mute_setGroup ..)) way.mute.2
  case collectWaits way _ _ _ | collectOrphaned way _ | collectTooLate way _ _ =>
    exact .mute way.mute.1 way.mute.2
  case collectFails way _ _ => exact .mute (way.mute.1.trans (mute_fail ..)) way.mute.2
  case collected way _ _ _ _ => exact .mute (way.mute.1.trans (mute_takeTurn ..)) way.mute.2
  case bodyStarts => exact .mute (mute_note ..) rfl
  case bodyless => exact .mute ((mute_setEvaluation ..).trans (mute_enter ..)) rfl

end Steps

/-! ### Records -/

/-- How what a module has to do with exports changes in a step, but for the setters that listen to
it. -/
inductive OutletChange (m m' : Machine C M) (r : RecordId) : Prop
  | same (keeps : (m.store.record r).Keeps (m'.store.record r))
  | adopted {code registration} (stack : m.stack = .hook r :: m'.stack)
      (control : m.control = .host code) (store : m'.store = m.store.adopt r registration)
  | published {entries} (control : m.control = .serve (.publish r entries))
      (told : ∀ x ∈ (m.store.record r).importerSetters, (x, r) ∈ m'.store.queue)
      (record : m'.store.record r = ((m.store.record r).exportAll entries).1)
  | attached {dependencies rest x} (attaches : Attaches m m' r dependencies rest)
      (keeps : (m.store.record r).Keeps x)
      (record : Record.SameOutlet { x with
        dependencies := dependencies.map Dependency.module
        dependencySetters := dependencies.map Dependency.setter } (m'.store.record r))
  | defined {url entries job} (new : r = m.store.records.size)
      (record : m'.store.record r =
        { url, firstReferrer := none, bindings := (Bindings.writeAll false entries []).1
          state := .executed, hasExported := true, instantiation := job, linking := job })

section Outlets

variable {host : Host C M} {ρ ρ' : Roles} {m m' : Machine C M} {r d : RecordId} {x : SetterId}
  {dependencies before rest : List Dependency} {dependency : Dependency}

theorem HandsOn.keeps (h : HandsOn m m' r dependencies before dependency rest) (r' : RecordId) :
    (m.store.record r').Keeps (m'.store.record r') := by
  obtain ⟨way, _, _, after⟩ := h
  rw [after.still.record, ← way.still.record]
  exact keeps_listen

theorem Rule.outlet (h : Rule host m m') (r : RecordId) : OutletChange m m' r := by
  have same : m'.store.record = m.store.record → OutletChange m m' r := fun h =>
    .same (h ▸ (Record.SameOutlet.refl _).keeps)
  cases h.notice with
  | mute store _ => exact .same (store.record r).keeps
  | @adopts r' code registration stack control store =>
    by_cases hr : r = r'
    · subst hr
      exact .adopted stack control store
    · refine .same ?_
      rw [store, record_adopt_of_ne hr]
      exact (Record.SameOutlet.refl _).keeps
  | @publishes r' entries s control after way =>
    have record : m'.store.record r = (m.store.update r' fun _ =>
        ((m.store.record r').exportAll entries).1).record r := by
      rw [way.still.record, after]
      rfl
    by_cases hr : r = r'
    · subst hr
      rcases Nat.lt_or_ge r m.store.records.size with lt | ge
      · refine .published control (fun x hx => ?_) (by rw [record, record_update_self lt])
        rw [way.queue_eq]
        exact List.mem_append_right _ (List.mem_map_of_mem hx)
      · have kept : (m.store.update r fun _ =>
            ((m.store.record r).exportAll entries).1).record r = m.store.record r := by
          rw [record_of_size_le (by simpa using ge), record_of_size_le ge]
        rw [kept] at record
        exact .same (record ▸ (Record.SameOutlet.refl _).keeps)
    · rw [record_update_of_ne hr] at record
      exact .same (record ▸ (Record.SameOutlet.refl _).keeps)
  | hands hands => exact .same (hands.keeps r)
  | @attaches r' dependencies rest attaches =>
    have attaches' := attaches
    obtain @⟨s, way, _, store⟩ := attaches
    have listened : (m.store.record r).Keeps ((rest.foldl listen s).record r) := by
      rw [← way.still.record]
      exact keeps_listen
    by_cases hr : r = r'
    · subst hr
      rcases Nat.lt_or_ge r (rest.foldl listen s).records.size with lt | ge
      · refine .attached attaches' listened ?_
        rw [store, record_attach_self lt]
        exact Record.sameOutlet_enter _ _
      · refine .same ?_
        have kept : ((rest.foldl listen s).attach r dependencies).record r =
            (rest.foldl listen s).record r := by
          rw [record_of_size_le (by simpa using ge), record_of_size_le ge]
        rw [store, kept]
        exact listened
    · refine .same ?_
      rw [store, record_attach_of_ne hr]
      exact listened
  | deletes store _ =>
    refine .same ?_
    rw [store]
    exact keeps_delete
  | defines store _ =>
    by_cases hr : r = m.store.records.size
    · subst hr
      exact .defined rfl (by rw [store]; exact record_define)
    · refine .same ?_
      rw [store, record_define_of_ne hr]
      exact keeps_delete
  | calls _ _ _ _ _ store => exact same (by rw [store]; rfl)
  | drops _ _ _ _ record _ _ => exact same record
  | settles _ store => exact same (by rw [store]; rfl)
  | rests _ store _ => exact same (by rw [store]; rfl)

/-- The setters of a module that are pending were so before a step, or its hook has registered
them. -/
theorem Rule.pendingSetters (h : Rule host m m') (r : RecordId) :
    (m'.store.record r).pendingSetters = (m.store.record r).pendingSetters ∨
      (m'.store.record r).pendingSetters = [] ∨
      ∃ code registration, m.stack = .hook r :: m'.stack ∧ m.control = .host code ∧
        m'.store = m.store.adopt r registration := by
  cases h.outlet r with
  | same keeps => exact keeps.pendingSetters.imp_right .inl
  | adopted stack control store => exact .inr (.inr ⟨_, _, stack, control, store⟩)
  | published _ _ record => exact .inl (by rw [record]; rfl)
  | attached _ keeps record =>
    rcases record.pendingSetters with same | none
    · rw [same]
      exact keeps.pendingSetters.imp_right .inl
    · exact .inr (.inl none)
  | defined _ record => exact .inr (.inl (by rw [record]))

end Outlets

end Machine

end ModuleSystem.Loader
