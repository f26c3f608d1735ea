import Mathlib.Data.List.Basic
import Mathlib.Tactic.SplitIfs
import ModuleSystem.Loader.Step

/-!
# Operations of the store

What the operations of the store do to the parts that the progress of modules depends on: the
records, the states of the jobs, the members of the groups, the registry, and the milestones of the
history. Most operations leave most of these alone, which one lemma for each operation says; the
fields of a record are told apart only when records are changed.
-/

namespace ModuleSystem.Loader

variable {C M : Type}

namespace ModuleState

theorem error?_eq_some {state : ModuleState} {error : LoaderError} :
    state.error? = some error ↔ state = .failed error := by
  cases state <;> simp [error?]

theorem error?_eq_none {state : ModuleState} :
    state.error? = none ↔ ∀ error, state ≠ .failed error := by
  cases state <;> simp [error?]

end ModuleState

namespace Event

/-- The events that the progress of modules and the calls of setters are counted by. -/
def isMilestone : Event → Bool
  | registered _ | deleted _ | hookCalled _ | bodyStarted _ | bodyEnded _ _ | changed _
  | called _ _ => true
  | _ => false

end Event

namespace Record

/-- There is something to see of a module: it has exported something, or is executed. -/
def IsVisible (r : Record C) : Prop :=
  r.hasExported = true ∨ r.state = .executed

theorem hasExported_of_not_isVisible {r : Record C} (h : ¬ r.IsVisible) : r.hasExported = false :=
  Bool.eq_false_iff.mpr fun exported => h (.inl exported)

end Record

namespace Store

/-- What an import that is asked for aims at: the URL of its module and the referrer, or an error.
Other requests ask for no import. -/
def target? (s : Store C) : Request → Option (Except LoaderError (Url × Option Url))
  | .start specifier referrer =>
    some (if s.hasLoader then (s.resolve specifier referrer).map (·, referrer)
      else .error .loaderDropped)
  | .startFrom module specifier =>
    some (if s.isAlive module then
        (s.resolve specifier (some (s.record module).url)).map (·, some (s.record module).url)
      else .error .loaderDropped)
  | _ => none

/-- The store with another evaluation of a module. -/
def setEvaluation (s : Store C) (module : RecordId) (job : Option JobId) : Store C :=
  s.update module fun r => { r with evaluation := job }

/-- The store in which the turn of a module has come: it is executing, and its body is taken. -/
def takeTurn (s : Store C) (module : RecordId) : Store C :=
  (s.enter module .executing).update module fun r => { r with body := none }

/-- The store with what a hook registers for a module. -/
def adopt (s : Store C) (module : RecordId) (registration : Registration C) : Store C :=
  let (s, setters) := s.addSetters registration.setters
  s.update module fun r =>
    { r with specifiers := registration.dependencies, pendingSetters := setters
             body := registration.body }

/-- The store in which the setter of a dependency, if there is one, listens to it. -/
def listen (s : Store C) (dependency : Dependency) : Store C :=
  match dependency.setter with
  | none => s
  | some setter => s.update dependency.module fun r =>
      { r with importerSetters := r.importerSetters ++ [setter] }

/-- The store with a module linked to its dependencies. -/
def attach (s : Store C) (module : RecordId) (dependencies : List Dependency) : Store C :=
  (s.update module fun r =>
    { r with dependencies := dependencies.map Dependency.module
             dependencySetters := dependencies.map Dependency.setter }).enter module .linked

/-- The store after a member of a group has ended or has to wait; `listener` is told of an attempt
that is broken off. -/
def settle (s : Store C) (group : GroupId) (i : Nat) (outcome : Option Outcome)
    (listener : Listener) : Store C :=
  match outcome with
  | some (.ok ()) => s.setGroup group ((s.group group).memberEnded i none listener)
  | some (.error error) => s.setGroup group ((s.group group).memberEnded i (some error) listener)
  | none =>
    let g := (s.group group).memberWaits
    let s := s.setGroup group g
    if g.isResting then (s.note (.rested group)).tell [listener] else s

/-- The store with another queue, which is being worked off or not. -/
def setQueue (s : Store C) (queue : List (SetterId × RecordId)) (draining : Bool) : Store C :=
  { s with queue, draining }

/-- The milestones of the history, the latest first. -/
def milestones (s : Store C) : List Event :=
  s.history.filter Event.isMilestone

section Operations

variable {s : Store C} {r r' : RecordId} {j j' : JobId} {g g' : GroupId}

theorem isAlive_eq_true : s.isAlive r = true ↔ s.retired ≤ r := by
  simp [isAlive]

theorem stateOf_eq : s.stateOf r = (s.record r).state := rfl

variable {e : Event} {setters : List SetterId} {queue : List (SetterId × RecordId)} {b : Bool}
  {name : String} {l : Listener} {x : SetterId} {n : Nat} {runs : List (Option (RecordId → C))}
  {group : Group} {state : JobState C} {f : Record C → Record C} {next : ModuleState}
  {error : LoaderError} {ls : List Listener}

@[simp] theorem note_same :
    (s.note e).record = s.record ∧ (s.note e).records.size = s.records.size ∧
    (s.note e).job = s.job ∧ (s.note e).jobs.size = s.jobs.size ∧ (s.note e).group = s.group ∧
    (s.note e).groups.size = s.groups.size ∧ (s.note e).registry = s.registry ∧
    (s.note e).retired = s.retired ∧ (s.note e).isAlive = s.isAlive := ⟨rfl, rfl, rfl, rfl, rfl, rfl, rfl, rfl, rfl⟩

@[simp] theorem milestones_note :
    (s.note e).milestones = if e.isMilestone then e :: s.milestones else s.milestones := by
  simp [milestones, note, List.filter_cons]

@[simp] theorem raise_same :
    (s.raise setters r).record = s.record ∧ (s.raise setters r).records.size = s.records.size ∧
    (s.raise setters r).job = s.job ∧ (s.raise setters r).jobs.size = s.jobs.size ∧
    (s.raise setters r).group = s.group ∧ (s.raise setters r).groups.size = s.groups.size ∧
    (s.raise setters r).registry = s.registry ∧ (s.raise setters r).retired = s.retired ∧
    (s.raise setters r).isAlive = s.isAlive := ⟨rfl, rfl, rfl, rfl, rfl, rfl, rfl, rfl, rfl⟩

@[simp] theorem milestones_raise : (s.raise setters r).milestones = s.milestones := by
  simp [milestones, raise, Event.isMilestone]

@[simp] theorem setQueue_same :
    (s.setQueue queue b).record = s.record ∧ (s.setQueue queue b).records.size = s.records.size ∧
    (s.setQueue queue b).job = s.job ∧ (s.setQueue queue b).jobs.size = s.jobs.size ∧
    (s.setQueue queue b).group = s.group ∧ (s.setQueue queue b).groups.size = s.groups.size ∧
    (s.setQueue queue b).registry = s.registry ∧ (s.setQueue queue b).retired = s.retired ∧
    (s.setQueue queue b).isAlive = s.isAlive ∧ (s.setQueue queue b).milestones = s.milestones := ⟨rfl, rfl, rfl, rfl, rfl, rfl, rfl, rfl, rfl, rfl⟩

@[simp] theorem markSetter_same :
    (s.markSetter x b).record = s.record ∧ (s.markSetter x b).records.size = s.records.size ∧
    (s.markSetter x b).job = s.job ∧ (s.markSetter x b).jobs.size = s.jobs.size ∧
    (s.markSetter x b).group = s.group ∧ (s.markSetter x b).groups.size = s.groups.size ∧
    (s.markSetter x b).registry = s.registry ∧ (s.markSetter x b).retired = s.retired ∧
    (s.markSetter x b).isAlive = s.isAlive ∧ (s.markSetter x b).milestones = s.milestones := ⟨rfl, rfl, rfl, rfl, rfl, rfl, rfl, rfl, rfl, rfl⟩

@[simp] theorem await_same :
    (s.await name l).record = s.record ∧ (s.await name l).records.size = s.records.size ∧
    (s.await name l).job = s.job ∧ (s.await name l).jobs.size = s.jobs.size ∧
    (s.await name l).group = s.group ∧ (s.await name l).groups.size = s.groups.size ∧
    (s.await name l).registry = s.registry ∧ (s.await name l).retired = s.retired ∧
    (s.await name l).isAlive = s.isAlive ∧ (s.await name l).milestones = s.milestones := by
  simp only [await]
  split <;> exact ⟨rfl, rfl, rfl, rfl, rfl, rfl, rfl, rfl, rfl, rfl⟩

@[simp] theorem addSetters_same :
    (s.addSetters runs).1.record = s.record ∧
    (s.addSetters runs).1.records.size = s.records.size ∧ (s.addSetters runs).1.job = s.job ∧
    (s.addSetters runs).1.jobs.size = s.jobs.size ∧ (s.addSetters runs).1.group = s.group ∧
    (s.addSetters runs).1.groups.size = s.groups.size ∧
    (s.addSetters runs).1.registry = s.registry ∧ (s.addSetters runs).1.retired = s.retired ∧
    (s.addSetters runs).1.isAlive = s.isAlive ∧ (s.addSetters runs).1.milestones = s.milestones := by
  induction runs generalizing s with
  | nil => exact ⟨rfl, rfl, rfl, rfl, rfl, rfl, rfl, rfl, rfl, rfl⟩
  | cons run runs ih =>
    cases run with
    | none => exact ih
    | some run =>
      simp only [addSetters]
      exact ih

@[simp] theorem setGroup_same :
    (s.setGroup g group).record = s.record ∧ (s.setGroup g group).records.size = s.records.size ∧
    (s.setGroup g group).job = s.job ∧ (s.setGroup g group).jobs.size = s.jobs.size ∧
    (s.setGroup g group).registry = s.registry ∧ (s.setGroup g group).retired = s.retired ∧
    (s.setGroup g group).isAlive = s.isAlive ∧ (s.setGroup g group).milestones = s.milestones := ⟨rfl, rfl, rfl, rfl, rfl, rfl, rfl, rfl⟩

@[simp] theorem newGroup_same :
    (s.newGroup n).1.record = s.record ∧ (s.newGroup n).1.records.size = s.records.size ∧
    (s.newGroup n).1.job = s.job ∧ (s.newGroup n).1.jobs.size = s.jobs.size ∧
    (s.newGroup n).1.registry = s.registry ∧ (s.newGroup n).1.retired = s.retired ∧
    (s.newGroup n).1.isAlive = s.isAlive ∧ (s.newGroup n).1.milestones = s.milestones := ⟨rfl, rfl, rfl, rfl, rfl, rfl, rfl, rfl⟩

@[simp] theorem setJob_same :
    (s.setJob j state).record = s.record ∧ (s.setJob j state).records.size = s.records.size ∧
    (s.setJob j state).group = s.group ∧ (s.setJob j state).groups.size = s.groups.size ∧
    (s.setJob j state).registry = s.registry ∧ (s.setJob j state).retired = s.retired ∧
    (s.setJob j state).isAlive = s.isAlive ∧ (s.setJob j state).milestones = s.milestones := ⟨rfl, rfl, rfl, rfl, rfl, rfl, rfl, rfl⟩

@[simp] theorem newJob_same :
    (s.newJob state).1.record = s.record ∧ (s.newJob state).1.records.size = s.records.size ∧
    (s.newJob state).1.group = s.group ∧ (s.newJob state).1.groups.size = s.groups.size ∧
    (s.newJob state).1.registry = s.registry ∧ (s.newJob state).1.retired = s.retired ∧
    (s.newJob state).1.isAlive = s.isAlive ∧ (s.newJob state).1.milestones = s.milestones := ⟨rfl, rfl, rfl, rfl, rfl, rfl, rfl, rfl⟩

@[simp] theorem subscribe_same :
    (s.subscribe j l).record = s.record ∧ (s.subscribe j l).records.size = s.records.size ∧
    (s.subscribe j l).group = s.group ∧ (s.subscribe j l).groups.size = s.groups.size ∧
    (s.subscribe j l).registry = s.registry ∧ (s.subscribe j l).retired = s.retired ∧
    (s.subscribe j l).isAlive = s.isAlive ∧ (s.subscribe j l).milestones = s.milestones := by
  simp only [subscribe]
  split <;> exact ⟨rfl, rfl, rfl, rfl, rfl, rfl, rfl, rfl⟩

@[simp] theorem update_same :
    (s.update r f).job = s.job ∧ (s.update r f).jobs.size = s.jobs.size ∧
    (s.update r f).group = s.group ∧ (s.update r f).groups.size = s.groups.size ∧
    (s.update r f).registry = s.registry ∧ (s.update r f).retired = s.retired ∧
    (s.update r f).isAlive = s.isAlive ∧ (s.update r f).milestones = s.milestones := ⟨rfl, rfl, rfl, rfl, rfl, rfl, rfl, rfl⟩

@[simp] theorem enter_same :
    (s.enter r next).job = s.job ∧ (s.enter r next).jobs.size = s.jobs.size ∧
    (s.enter r next).group = s.group ∧ (s.enter r next).groups.size = s.groups.size ∧
    (s.enter r next).registry = s.registry ∧ (s.enter r next).retired = s.retired ∧
    (s.enter r next).isAlive = s.isAlive := by
  simp only [enter]
  split <;> exact ⟨rfl, rfl, rfl, rfl, rfl, rfl, rfl⟩

@[simp] theorem fail_same :
    (s.fail r error).1.job = s.job ∧ (s.fail r error).1.jobs.size = s.jobs.size ∧
    (s.fail r error).1.group = s.group ∧ (s.fail r error).1.groups.size = s.groups.size ∧
    (s.fail r error).1.registry = s.registry ∧ (s.fail r error).1.retired = s.retired ∧
    (s.fail r error).1.isAlive = s.isAlive := by
  simp only [fail]
  split <;> exact ⟨rfl, rfl, rfl, rfl, rfl, rfl, rfl⟩

@[simp] theorem setEvaluation_same {job : Option JobId} :
    (s.setEvaluation r job).job = s.job ∧ (s.setEvaluation r job).jobs.size = s.jobs.size ∧
    (s.setEvaluation r job).group = s.group ∧
    (s.setEvaluation r job).groups.size = s.groups.size ∧
    (s.setEvaluation r job).registry = s.registry ∧ (s.setEvaluation r job).retired = s.retired ∧
    (s.setEvaluation r job).isAlive = s.isAlive ∧
    (s.setEvaluation r job).milestones = s.milestones := update_same

@[simp] theorem takeTurn_same :
    (s.takeTurn r).job = s.job ∧ (s.takeTurn r).jobs.size = s.jobs.size ∧
    (s.takeTurn r).group = s.group ∧ (s.takeTurn r).groups.size = s.groups.size ∧
    (s.takeTurn r).registry = s.registry ∧ (s.takeTurn r).retired = s.retired ∧
    (s.takeTurn r).isAlive = s.isAlive := by
  simp [takeTurn]

@[simp] theorem adopt_same {registration : Registration C} :
    (s.adopt r registration).job = s.job ∧ (s.adopt r registration).jobs.size = s.jobs.size ∧
    (s.adopt r registration).group = s.group ∧
    (s.adopt r registration).groups.size = s.groups.size ∧
    (s.adopt r registration).registry = s.registry ∧
    (s.adopt r registration).retired = s.retired ∧
    (s.adopt r registration).isAlive = s.isAlive ∧
    (s.adopt r registration).milestones = s.milestones := by
  simp [adopt]

@[simp] theorem attach_same {dependencies : List Dependency} :
    (s.attach r dependencies).job = s.job ∧ (s.attach r dependencies).jobs.size = s.jobs.size ∧
    (s.attach r dependencies).group = s.group ∧
    (s.attach r dependencies).groups.size = s.groups.size ∧
    (s.attach r dependencies).registry = s.registry ∧
    (s.attach r dependencies).retired = s.retired ∧
    (s.attach r dependencies).isAlive = s.isAlive := by
  simp [attach]

/-! ### Records -/

theorem record_of_size_le (h : s.records.size ≤ r) : s.record r = .blank := by
  simp [record, h]

@[simp] theorem size_records_update : (s.update r f).records.size = s.records.size := by
  simp [update]

theorem record_update_self (h : r < s.records.size) : (s.update r f).record r = f (s.record r) := by
  simp [record, update, Array.getElem_modify, h]

theorem record_update_of_ne (h : r' ≠ r) : (s.update r f).record r' = s.record r' := by
  simp [record, update, Array.getElem?_modify, h.symm]

/-- What a change of a record keeps, every record keeps. -/
theorem record_update_keeps {α : Type} (p : Record C → α) (h : ∀ x, p (f x) = p x) :
    p ((s.update r f).record r') = p (s.record r') := by
  by_cases hr : r' = r
  · subst hr
    by_cases hs : r' < s.records.size
    · rw [record_update_self hs, h]
    · have hs' : s.records.size ≤ r' := Nat.le_of_not_lt hs
      rw [record_of_size_le (by simpa using hs'), record_of_size_le hs']
  · rw [record_update_of_ne hr]

@[simp] theorem record_enter :
    (s.enter r next).record r' = (s.update r fun x => x.enter next).record r' := by
  simp only [enter]
  split <;> rfl

@[simp] theorem size_records_enter : (s.enter r next).records.size = s.records.size := by
  simp only [enter]
  split <;> exact size_records_update

@[simp] theorem milestones_enter : (s.enter r next).milestones = s.milestones := by
  simp only [enter]
  split <;> simp [Event.isMilestone]

@[simp] theorem record_fail :
    (s.fail r error).1.record r' = (s.update r fun x => x.poison error).record r' := by
  simp only [fail]
  split <;> rfl

@[simp] theorem size_records_fail : (s.fail r error).1.records.size = s.records.size := by
  simp only [fail]
  split <;> exact size_records_update

@[simp] theorem milestones_fail : (s.fail r error).1.milestones = s.milestones := by
  simp only [fail]
  split <;> simp [Event.isMilestone]

@[simp] theorem size_records_setEvaluation {job : Option JobId} :
    (s.setEvaluation r job).records.size = s.records.size := size_records_update

@[simp] theorem size_records_takeTurn : (s.takeTurn r).records.size = s.records.size := by
  simp [takeTurn]

@[simp] theorem milestones_takeTurn : (s.takeTurn r).milestones = s.milestones := by
  simp [takeTurn]

@[simp] theorem size_records_adopt {registration : Registration C} :
    (s.adopt r registration).records.size = s.records.size := by
  simp [adopt]

@[simp] theorem size_records_attach {dependencies : List Dependency} :
    (s.attach r dependencies).records.size = s.records.size := by
  simp [attach]

@[simp] theorem milestones_attach {dependencies : List Dependency} :
    (s.attach r dependencies).milestones = s.milestones := by
  simp [attach]

end Operations

end Store

namespace Record

variable {r : Record C} {next : ModuleState} {error : LoaderError}

/-- Entering a state changes nothing but the state. -/
@[simp] theorem enter_same : (r.enter next).url = r.url ∧
    (r.enter next).firstReferrer = r.firstReferrer ∧
    (r.enter next).instantiation = r.instantiation ∧ (r.enter next).linking = r.linking ∧
    (r.enter next).evaluation = r.evaluation ∧ (r.enter next).topLevel = r.topLevel ∧
    (r.enter next).dependencies = r.dependencies ∧ (r.enter next).body = r.body := by
  unfold enter
  split <;> simp

/-- Failing leaves the jobs and the dependencies of a module. -/
@[simp] theorem poison_same : (r.poison error).url = r.url ∧
    (r.poison error).firstReferrer = r.firstReferrer ∧
    (r.poison error).instantiation = r.instantiation ∧ (r.poison error).linking = r.linking ∧
    (r.poison error).evaluation = r.evaluation ∧ (r.poison error).topLevel = r.topLevel ∧
    (r.poison error).dependencies = r.dependencies := by
  unfold poison
  split <;> simp

theorem state_enter :
    (r.enter next).state = if r.state.error? = none then next else r.state := by
  unfold enter
  split <;> simp_all [ModuleState.error?_eq_none]

/-- A record enters a state unless it has failed. -/
theorem state_enter_cases : (r.enter next).state = next ∨
    ∃ error, r.state = .failed error ∧ (r.enter next).state = .failed error := by
  rw [state_enter]
  cases h : r.state.error? with
  | none => exact .inl (if_pos rfl)
  | some error =>
    have failed := ModuleState.error?_eq_some.mp h
    exact .inr ⟨error, failed, by simp [failed]⟩

theorem state_poison : (r.poison error).state =
    if r.state = .executed ∨ r.state.error? ≠ none then r.state else .failed error := by
  unfold poison
  split <;> simp_all [ModuleState.error?_eq_none]

/-- A record that is to fail has failed afterwards, unless it is executed. -/
theorem state_poison_cases : (r.poison error).state = .executed ∨
    ∃ error', (r.poison error).state = .failed error' := by
  rw [state_poison]
  split_ifs with h
  · refine h.imp_right fun failed => ?_
    obtain ⟨error', h⟩ := Option.ne_none_iff_exists'.mp failed
    exact ⟨error', ModuleState.error?_eq_some.mp h⟩
  · exact .inr ⟨error, rfl⟩

theorem body_poison : (r.poison error).body =
    if r.state = .executed ∨ r.state.error? ≠ none then r.body else none := by
  unfold poison
  split <;> simp_all [ModuleState.error?_eq_none]

/-- A record has not come any further than another: they have the same jobs, dependencies, body and
state. -/
structure SameProgress (r r' : Record C) : Prop where
  url : r'.url = r.url
  state : r'.state = r.state
  dependencies : r'.dependencies = r.dependencies
  body : r'.body = r.body
  instantiation : r'.instantiation = r.instantiation
  linking : r'.linking = r.linking
  evaluation : r'.evaluation = r.evaluation
  topLevel : r'.topLevel = r.topLevel

theorem SameProgress.refl (r : Record C) : r.SameProgress r :=
  ⟨rfl, rfl, rfl, rfl, rfl, rfl, rfl, rfl⟩

theorem SameProgress.trans {r₁ r₂ r₃ : Record C} (h : r₁.SameProgress r₂)
    (h' : r₂.SameProgress r₃) : r₁.SameProgress r₃ where
  url := h'.url.trans h.url
  state := h'.state.trans h.state
  dependencies := h'.dependencies.trans h.dependencies
  body := h'.body.trans h.body
  instantiation := h'.instantiation.trans h.instantiation
  linking := h'.linking.trans h.linking
  evaluation := h'.evaluation.trans h.evaluation
  topLevel := h'.topLevel.trans h.topLevel

end Record

namespace Store

section Fields

variable {s : Store C} {r r' : RecordId} {f : Record C → Record C}

/-- A change that brings no record any further. -/
theorem sameProgress_update (h : ∀ x : Record C, x.SameProgress (f x)) :
    (s.record r').SameProgress ((s.update r f).record r') where
  url := record_update_keeps Record.url fun x => (h x).url
  state := record_update_keeps Record.state fun x => (h x).state
  dependencies := record_update_keeps Record.dependencies fun x => (h x).dependencies
  body := record_update_keeps Record.body fun x => (h x).body
  instantiation := record_update_keeps Record.instantiation fun x => (h x).instantiation
  linking := record_update_keeps Record.linking fun x => (h x).linking
  evaluation := record_update_keeps Record.evaluation fun x => (h x).evaluation
  topLevel := record_update_keeps Record.topLevel fun x => (h x).topLevel

/-! The fields of the records after a change that does not concern them. -/

@[simp] theorem url_update (h : ∀ x, (f x).url = x.url) :
    ((s.update r f).record r').url = (s.record r').url :=
  record_update_keeps Record.url h

@[simp] theorem firstReferrer_update (h : ∀ x, (f x).firstReferrer = x.firstReferrer) :
    ((s.update r f).record r').firstReferrer = (s.record r').firstReferrer :=
  record_update_keeps Record.firstReferrer h

@[simp] theorem instantiation_update (h : ∀ x, (f x).instantiation = x.instantiation) :
    ((s.update r f).record r').instantiation = (s.record r').instantiation :=
  record_update_keeps Record.instantiation h

@[simp] theorem linking_update (h : ∀ x, (f x).linking = x.linking) :
    ((s.update r f).record r').linking = (s.record r').linking :=
  record_update_keeps Record.linking h

@[simp] theorem evaluation_update (h : ∀ x, (f x).evaluation = x.evaluation) :
    ((s.update r f).record r').evaluation = (s.record r').evaluation :=
  record_update_keeps Record.evaluation h

@[simp] theorem topLevel_update (h : ∀ x, (f x).topLevel = x.topLevel) :
    ((s.update r f).record r').topLevel = (s.record r').topLevel :=
  record_update_keeps Record.topLevel h

@[simp] theorem dependencies_update (h : ∀ x, (f x).dependencies = x.dependencies) :
    ((s.update r f).record r').dependencies = (s.record r').dependencies :=
  record_update_keeps Record.dependencies h

@[simp] theorem body_update (h : ∀ x, (f x).body = x.body) :
    ((s.update r f).record r').body = (s.record r').body :=
  record_update_keeps Record.body h

@[simp] theorem state_update (h : ∀ x, (f x).state = x.state) :
    ((s.update r f).record r').state = (s.record r').state :=
  record_update_keeps Record.state h

end Fields

section Changed

variable {s : Store C} {r r' : RecordId} {next : ModuleState} {error : LoaderError}
  {job : Option JobId} {registration : Registration C} {dependencies : List Dependency}

/-! The record that an operation is about, and the others. -/

theorem record_enter_self (h : r < s.records.size) :
    (s.enter r next).record r = (s.record r).enter next := by
  rw [record_enter, record_update_self h]

theorem record_enter_of_ne (h : r' ≠ r) : (s.enter r next).record r' = s.record r' := by
  rw [record_enter, record_update_of_ne h]

theorem record_fail_self (h : r < s.records.size) :
    (s.fail r error).1.record r = (s.record r).poison error := by
  rw [record_fail, record_update_self h]

theorem record_fail_of_ne (h : r' ≠ r) : (s.fail r error).1.record r' = s.record r' := by
  rw [record_fail, record_update_of_ne h]

theorem record_setEvaluation_self (h : r < s.records.size) :
    (s.setEvaluation r job).record r = { s.record r with evaluation := job } :=
  record_update_self h

theorem record_setEvaluation_of_ne (h : r' ≠ r) :
    (s.setEvaluation r job).record r' = s.record r' :=
  record_update_of_ne h

theorem record_takeTurn_self (h : r < s.records.size) :
    (s.takeTurn r).record r = { (s.record r).enter .executing with body := none } := by
  rw [takeTurn, record_update_self (by simpa using h), record_enter_self h]

/-- A module whose turn has come has no body left. -/
theorem body_takeTurn : ((s.takeTurn r).record r).body = none := by
  by_cases h : r < s.records.size
  · rw [record_takeTurn_self h]
  · rw [record_of_size_le (by simpa using h)]
    rfl

theorem record_takeTurn_of_ne (h : r' ≠ r) : (s.takeTurn r).record r' = s.record r' := by
  rw [takeTurn, record_update_of_ne h, record_enter_of_ne h]

theorem record_adopt_self (h : r < s.records.size) :
    ∃ setters, (s.adopt r registration).record r =
      { s.record r with specifiers := registration.dependencies, pendingSetters := setters
                        body := registration.body } := by
  refine ⟨(s.addSetters registration.setters).2, ?_⟩
  rw [adopt, record_update_self (by simpa using h), addSetters_same.1]

theorem record_adopt_of_ne (h : r' ≠ r) :
    (s.adopt r registration).record r' = s.record r' := by
  rw [adopt, record_update_of_ne h, addSetters_same.1]

theorem record_attach_self (h : r < s.records.size) :
    (s.attach r dependencies).record r =
      Record.enter { s.record r with
        dependencies := dependencies.map Dependency.module
        dependencySetters := dependencies.map Dependency.setter } .linked := by
  rw [attach, record_enter_self (by simpa using h), record_update_self h]

theorem record_attach_of_ne (h : r' ≠ r) : (s.attach r dependencies).record r' = s.record r' := by
  rw [attach, record_enter_of_ne h, record_update_of_ne h]

end Changed

section Jobs

variable {s : Store C} {r : RecordId} {j j' : JobId} {g g' : GroupId} {l : Listener}
  {ls : List Listener} {f : Job C → Job C} {state : JobState C} {group : Group} {n : Nat}
  {outcome : Outcome}

/-! ### Jobs and groups -/

theorem job_updateJob : (s.updateJob j f).job j' =
    if j' = j ∧ j < s.jobs.size then f (s.job j') else s.job j' := by
  by_cases h : j' = j
  · subst h
    by_cases hs : j' < s.jobs.size <;> simp [job, updateJob, Array.getElem_modify, hs]
  · simp [job, updateJob, Array.getElem?_modify, h, Ne.symm h]

/-- What a change of a job keeps of its state, every job keeps. -/
theorem state_job_updateJob (h : ∀ x, (f x).state = x.state) :
    ((s.updateJob j f).job j').state = (s.job j').state := by
  rw [job_updateJob]
  split_ifs <;> simp [h]

theorem state_job_of_size_le (h : s.jobs.size ≤ j) : (s.job j).state = .finished (.ok ()) := by
  simp [job, h]
  rfl

theorem group_of_size_le (h : s.groups.size ≤ g) : s.group g = .ofSize 0 := by
  rw [Store.group, Array.getElem?_eq_none h]
  rfl

/-- A job that has not ended is there. -/
theorem lt_of_state (h : ∀ outcome, (s.job j).state ≠ .finished outcome) : j < s.jobs.size :=
  Nat.lt_of_not_le fun le => h _ (state_job_of_size_le le)

theorem lt_of_waiting {w : Work C} (h : (s.job j).state = .waiting w) : j < s.jobs.size :=
  lt_of_state fun _ ended => nomatch h.symm.trans ended

@[simp] theorem size_jobs_updateJob : (s.updateJob j f).jobs.size = s.jobs.size := by
  simp [updateJob]

@[simp] theorem state_job_subscribe : ((s.subscribe j l).job j').state = (s.job j').state := by
  simp only [subscribe]
  split
  · rfl
  · refine state_job_updateJob fun x => ?_
    simp only [Job.subscribe]
    split <;> rfl

@[simp] theorem size_jobs_subscribe : (s.subscribe j l).jobs.size = s.jobs.size := by
  simp only [subscribe]
  split <;> simp

theorem state_job_setJob : ((s.setJob j state).job j').state =
    if j' = j ∧ j < s.jobs.size then state else (s.job j').state := by
  rw [setJob, job_updateJob]
  split_ifs <;> rfl

@[simp] theorem size_jobs_setJob : (s.setJob j state).jobs.size = s.jobs.size := by
  simp [setJob]

@[simp] theorem size_jobs_newJob : (s.newJob state).1.jobs.size = s.jobs.size + 1 := by
  simp [newJob]

@[simp] theorem snd_newJob : (s.newJob state).2 = s.jobs.size := rfl

theorem state_job_newJob : ((s.newJob state).1.job j').state =
    if j' = s.jobs.size then state else (s.job j').state := by
  simp only [job, newJob, Array.getElem?_push]
  split_ifs <;> simp

@[simp] theorem snd_newGroup : (s.newGroup n).2 = s.groups.size := rfl

@[simp] theorem size_groups_newGroup : (s.newGroup n).1.groups.size = s.groups.size + 1 := by
  simp [newGroup]

theorem group_newGroup : (s.newGroup n).1.group g' =
    if g' = s.groups.size then .ofSize n else s.group g' := by
  simp only [Store.group, newGroup, Array.getElem?_push]
  split_ifs <;> simp

theorem group_setGroup : (s.setGroup g group).group g' =
    if g' = g ∧ g < s.groups.size then group else s.group g' := by
  by_cases h : g' = g
  · subst h
    by_cases hs : g' < s.groups.size <;> simp [Store.group, setGroup, Array.getElem_modify, hs]
  · simp [Store.group, setGroup, Array.getElem?_modify, h, Ne.symm h]

@[simp] theorem size_groups_setGroup : (s.setGroup g group).groups.size = s.groups.size := by
  simp [setGroup]

/-! ### Telling listeners -/

/-- The members of a group that are due have not ended, every member has its place for an error,
and those that have not ended have none. -/
structure IsOrderly (g : Group) : Prop where
  left : g.left.Nodup
  due : g.due.Nodup
  sub : g.due ⊆ g.left
  errors : g.errors.length = g.size
  pending : ∀ i ∈ g.left, g.errors[i]? = some none

theorem IsOrderly.lt_of_left {g : Group} {i : Nat} (h : IsOrderly g) (left : i ∈ g.left) :
    i < g.size := by
  rw [← h.errors]
  exact (List.getElem?_eq_some_iff.mp (h.pending i left)).1

/-- The next member of a group is the first that is due. -/
theorem next?_eq_some {α : Type} {g g' : Group} {members : List α} {x : α} {i : Nat}
    (h : g.next? members = some (x, i, g')) : ∃ due, g.due = i :: due ∧ members[i]? = some x ∧
      g' = { g with due, current := some i, isStirred := false } := by
  unfold Group.next? at h
  split at h
  · exact nomatch h
  · rename_i j due hd
    split_ifs at h
    obtain ⟨_, member, h⟩ := Option.map_eq_some_iff.mp h
    cases h
    exact ⟨due, hd, member, rfl⟩

theorem isOrderly_ofSize (n : Nat) : IsOrderly (.ofSize n) := by
  refine ⟨List.nodup_range, List.nodup_range, fun _ h => h, List.length_replicate, fun i hi => ?_⟩
  exact List.getElem?_replicate_of_lt (List.mem_range.mp hi)

/-- A group has the same members left, with the same results, as another. -/
structure SameMembers (g g' : Group) : Prop where
  size : g'.size = g.size
  left : g'.left = g.left
  errors : g'.errors = g.errors
  orderly : IsOrderly g → IsOrderly g'

theorem SameMembers.refl (g : Group) : SameMembers g g := ⟨rfl, rfl, rfl, id⟩

theorem SameMembers.trans {g₁ g₂ g₃ : Group} (h : SameMembers g₁ g₂) (h' : SameMembers g₂ g₃) :
    SameMembers g₁ g₃ :=
  ⟨h'.size.trans h.size, h'.left.trans h.left, h'.errors.trans h.errors,
    fun orderly => h'.orderly (h.orderly orderly)⟩

theorem sameMembers_call (x : Group) (i : Nat) : SameMembers x (x.call i).1 := by
  have stirs : SameMembers x { x with isStirred := true } :=
    ⟨rfl, rfl, rfl, fun ⟨left, due, sub, errors, pending⟩ => ⟨left, due, sub, errors, pending⟩⟩
  have calls : ∀ y : Group, y.left.contains i && !y.due.contains i →
      SameMembers y { y with due := y.due ++ [i], caller := .nobody } := by
    intro y h
    simp only [Bool.and_eq_true, List.contains_eq_mem, decide_eq_true_eq, Bool.not_eq_true',
      decide_eq_false_iff_not] at h
    refine ⟨rfl, rfl, rfl, fun ⟨left, due, sub, errors, pending⟩ =>
      ⟨left, ?_, ?_, errors, pending⟩⟩
    · exact List.nodup_append.mpr ⟨due, by simp, fun a ha b hb hab =>
        h.2 (List.mem_singleton.mp hb ▸ hab ▸ ha)⟩
    · intro a ha
      rcases List.mem_append.mp ha with ha | ha
      · exact sub ha
      · rw [List.mem_singleton.mp ha]
        exact h.1
  simp only [Group.call]
  split_ifs with current left left
  · exact stirs.trans (calls _ left)
  · exact stirs
  · exact calls _ left
  · exact .refl x

theorem sameMembers_setGroup {x : Group} (h : SameMembers (s.group g) x) (g' : GroupId) :
    SameMembers (s.group g') ((s.setGroup g x).group g') := by
  rw [group_setGroup]
  split_ifs with hg
  · rw [hg.1]
    exact h
  · exact .refl _

/-- Telling listeners, as far as the modules are concerned: the subscriptions of jobs change, and
which members of groups are due. -/
structure Told (s s' : Store C) : Prop where
  record : s'.record = s.record
  size_records : s'.records.size = s.records.size
  state_job : ∀ j, (s'.job j).state = (s.job j).state
  size_jobs : s'.jobs.size = s.jobs.size
  members : ∀ g, SameMembers (s.group g) (s'.group g)
  size_groups : s'.groups.size = s.groups.size
  registry : s'.registry = s.registry
  retired : s'.retired = s.retired
  milestones : s'.milestones = s.milestones

theorem Told.refl (s : Store C) : Told s s :=
  ⟨rfl, rfl, fun _ => rfl, rfl, fun _ => .refl _, rfl, rfl, rfl, rfl⟩

theorem Told.trans {s₁ s₂ s₃ : Store C} (h : Told s₁ s₂) (h' : Told s₂ s₃) : Told s₁ s₃ where
  record := h'.record.trans h.record
  size_records := h'.size_records.trans h.size_records
  state_job j := (h'.state_job j).trans (h.state_job j)
  size_jobs := h'.size_jobs.trans h.size_jobs
  members g := (h.members g).trans (h'.members g)
  size_groups := h'.size_groups.trans h.size_groups
  registry := h'.registry.trans h.registry
  retired := h'.retired.trans h.retired
  milestones := h'.milestones.trans h.milestones

theorem told_updateJob (h : ∀ x, (f x).state = x.state) : Told s (s.updateJob j f) where
  record := rfl
  size_records := rfl
  state_job _ := state_job_updateJob h
  size_jobs := size_jobs_updateJob
  members _ := .refl _
  size_groups := rfl
  registry := rfl
  retired := rfl
  milestones := rfl

theorem told_setGroup (h : SameMembers (s.group g) group) : Told s (s.setGroup g group) where
  record := rfl
  size_records := rfl
  state_job _ := rfl
  size_jobs := rfl
  members := sameMembers_setGroup h
  size_groups := size_groups_setGroup
  registry := rfl
  retired := rfl
  milestones := rfl

theorem told_tellWithin (fuel : Nat) (ls : List Listener) (s : Store C) :
    Told s (s.tellWithin fuel ls) := by
  induction fuel, ls, s using tellWithin.induct with
  | case1 fuel s =>
    rw [tellWithin]
    exact .refl s
  | case2 _ _ s => exact .refl s
  | case3 fuel others s ih => exact ih
  | case4 fuel j others s ih =>
    have told : Told s (s.updateJob j Job.silence) := told_updateJob fun _ => rfl
    exact told.trans ih
  | case5 fuel g i others s x caller h ih =>
    simp only [tellWithin, h]
    have same := sameMembers_call (s.group g) i
    rw [h] at same
    exact (told_setGroup same).trans ih

theorem told_tell (s : Store C) (ls : List Listener) : Told s (s.tell ls) :=
  told_tellWithin _ _ _

/-- Telling listeners leaves the modules alone. -/
@[simp] theorem tell_same : (s.tell ls).record = s.record ∧
    (s.tell ls).records.size = s.records.size ∧ (s.tell ls).jobs.size = s.jobs.size ∧
    (s.tell ls).groups.size = s.groups.size ∧ (s.tell ls).registry = s.registry ∧
    (s.tell ls).retired = s.retired ∧ (s.tell ls).isAlive = s.isAlive ∧
    (s.tell ls).milestones = s.milestones := by
  have h := told_tell s ls
  refine ⟨h.record, h.size_records, h.size_jobs, h.size_groups, h.registry, h.retired, ?_,
    h.milestones⟩
  funext r
  simp only [isAlive, h.retired]

@[simp] theorem state_job_tell : ((s.tell ls).job j).state = (s.job j).state :=
  (told_tell s ls).state_job j

theorem sameMembers_tell (s : Store C) (ls : List Listener) (g : GroupId) :
    SameMembers (s.group g) ((s.tell ls).group g) :=
  (told_tell s ls).members g

/-- Ending a job changes its state and leaves the modules alone. -/
@[simp] theorem finish_same : (s.finish j outcome).record = s.record ∧
    (s.finish j outcome).records.size = s.records.size ∧
    (s.finish j outcome).jobs.size = s.jobs.size ∧
    (s.finish j outcome).groups.size = s.groups.size ∧
    (s.finish j outcome).registry = s.registry ∧ (s.finish j outcome).retired = s.retired ∧
    (s.finish j outcome).isAlive = s.isAlive ∧
    (s.finish j outcome).milestones = s.milestones := by
  have hm : (s.updateJob j Job.silence).milestones = s.milestones := rfl
  simp only [finish, tell_same, note_same, setJob_same, milestones_note, size_jobs_setJob,
    size_jobs_updateJob]
  exact ⟨rfl, rfl, trivial, rfl, rfl, rfl, rfl, hm⟩

theorem state_job_finish : ((s.finish j outcome).job j').state =
    if j' = j ∧ j < s.jobs.size then .finished outcome else (s.job j').state := by
  simp only [finish, state_job_tell, note_same, state_job_setJob, size_jobs_updateJob]
  split_ifs
  · rfl
  · exact state_job_updateJob fun _ => rfl

theorem sameMembers_finish (s : Store C) (j : JobId) (outcome : Outcome) (g : GroupId) :
    SameMembers (s.group g) ((s.finish j outcome).group g) := by
  have same := sameMembers_tell
    (((s.updateJob j Job.silence).setJob j (.finished outcome)).note (.finished j))
    (s.job j).active g
  rw [note_same.2.2.2.2.1, setJob_same.2.2.1] at same
  exact same

/-! ### Attempts at groups -/

/-- The progress of a group leaves the modules alone. -/
@[simp] theorem settle_same {i : Nat} {result : Option Outcome} :
    (s.settle g i result l).record = s.record ∧
    (s.settle g i result l).records.size = s.records.size ∧
    (s.settle g i result l).jobs.size = s.jobs.size ∧
    (s.settle g i result l).groups.size = s.groups.size ∧
    (s.settle g i result l).registry = s.registry ∧
    (s.settle g i result l).retired = s.retired ∧
    (s.settle g i result l).isAlive = s.isAlive ∧
    (s.settle g i result l).milestones = s.milestones := by
  unfold settle
  split
  · simp
  · simp
  · dsimp only
    split_ifs <;> simp [Event.isMilestone]

@[simp] theorem state_job_settle {i : Nat} {result : Option Outcome} :
    ((s.settle g i result l).job j).state = (s.job j).state := by
  unfold settle
  split
  · rfl
  · rfl
  · dsimp only
    split_ifs
    · rw [state_job_tell]
      rfl
    · rfl

end Jobs

end Store

end ModuleSystem.Loader
