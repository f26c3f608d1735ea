import ModuleSystem.Proofs.Loader.Descent
import ModuleSystem.Proofs.Loader.Sessions

/-!
# Modules move forward

A module goes through its states in one direction. It may fail on the way, and then keeps its error;
once executed it stays so (`ModuleState.LeadsTo`).

The machine itself is less strict than that. Two walks may come to one module, say when the body of a
dependency imports it again, and then the turn of a module that has been executed comes once more.
Such a module has no body left, so it is executed again in the next two steps (`Machine.Repeats`).
No host code runs in between, and so nobody can tell.

## Main definitions

* `ModuleState.LeadsTo` : what a state may be followed by.
* `Machine.isObserved` : someone outside the loader can look at the store.

## Main results

* `Machine.Run.leadsTo_of_isObserved` : modules move forward.
-/

namespace ModuleSystem.Loader

variable {C M : Type}

namespace ModuleState

/-- How far a state is on the way from a new module to one that is over. -/
def rank : ModuleState → Nat
  | unlinked => 0
  | instantiating => 1
  | linked => 2
  | executing => 3
  | executed => 4
  | failed _ => 4

/-- A module in the first state may be in the second one later. -/
def LeadsTo : ModuleState → ModuleState → Prop
  | failed error, later => later = failed error
  | executed, later => later = executed
  | _, failed _ => True
  | earlier, later => earlier.rank ≤ later.rank

section LeadsTo

variable {a b c : ModuleState} {error : LoaderError}

theorem LeadsTo.refl (a : ModuleState) : a.LeadsTo a := by
  cases a <;> simp [LeadsTo]

theorem leadsTo_of_rank_le (ha : a ≠ .executed) (sound : a.error? = none)
    (h : a.rank ≤ b.rank) : a.LeadsTo b := by
  cases a <;> cases b <;> simp_all [LeadsTo, rank, error?]

theorem leadsTo_failed (ha : a ≠ .executed) (sound : a.error? = none) :
    a.LeadsTo (.failed error) := by
  cases a <;> simp_all [LeadsTo, error?]

theorem LeadsTo.trans (h : a.LeadsTo b) (h' : b.LeadsTo c) : a.LeadsTo c := by
  cases a <;> cases b <;> cases c <;> simp_all [LeadsTo, rank]

/-- What leads to an executed module is executed itself, or comes before. -/
theorem LeadsTo.executed_or (h : a.LeadsTo .executed) : a = .executed ∨ a.LeadsTo .executing := by
  cases a <;> simp_all [LeadsTo, rank]

end LeadsTo

end ModuleState

namespace Machine

open Store

/-- Whether someone outside the loader can look at the store: host code that runs next, or whoever has
made a request that has been answered. -/
def isObserved (m : Machine C M) : Bool :=
  match m.control with
  | .host _ => true
  | _ => m.reply?.isSome

/-- The turn of an executed module has come once more, and it is about to be executed again without
a body. -/
structure Repeats (m : Machine C M) (r : RecordId) : Prop where
  known : r < m.store.records.size
  alive : m.store.isAlive r = true
  state : (m.store.record r).state = .executing
  next : m.control = .work (.runBody r none) ∨
    ∃ j, m.control = .poll j ∧ (m.store.job j).state = .waiting (.runBody r none)

theorem Repeats.isObserved_eq_false {m : Machine C M} {r : RecordId} (h : m.Repeats r) :
    m.isObserved = false := by
  rcases h.next with next | ⟨_, next, _⟩ <;> simp [isObserved, reply?, next]

section Steps

variable {host : Host C M} {ρ ρ' : Roles} {m m' x : Machine C M} {trace : List (Machine C M)}
  {r : RecordId}

/-- The state of a module that is not executed moves forward in a step. -/
theorem Transition.leadsTo (h : Transition m m' r) (sound : m.Sound ρ) (staged : m.Staged ρ)
    (unexecuted : (m.store.record r).state ≠ .executed) :
    (m.store.record r).state.LeadsTo (m'.store.record r).state := by
  have early : ¬ m.Linked r → (m.store.record r).state.error? = none →
      (m.store.record r).state.rank ≤ 1 := by
    intro unlinked sound
    have before := mt (staged.linked r) unlinked
    generalize (m.store.record r).state = state at before sound
    cases state <;> simp_all [ModuleState.IsLinked, ModuleState.rank, ModuleState.error?]
  have late : (m.store.record r).state.error? = none → (m.store.record r).state.rank ≤ 3 := by
    intro sound
    generalize (m.store.record r).state = state at unexecuted sound
    cases state <;> simp_all [ModuleState.rank, ModuleState.error?]
  cases h with
  | stays state => rw [state]; exact .refl _
  | fails _ sound state => rw [state]; exact ModuleState.leadsTo_failed unexecuted sound
  | hooked control _ clean state =>
    have fresh : ¬ m.Linked r := fun linked =>
      sound.not_instantiated control (staged.instantiated r linked)
    rw [state]
    exact ModuleState.leadsTo_of_rank_le unexecuted clean (early fresh clean)
  | attached way _ clean state =>
    rw [state]
    exact ModuleState.leadsTo_of_rank_le unexecuted clean
      (Nat.le_succ_of_le (early (sound.not_linked way) clean))
  | comes _ _ _ _ clean state | collected _ _ _ clean state =>
    rw [state]
    exact ModuleState.leadsTo_of_rank_le unexecuted clean (late clean)
  | ended _ _ _ _ clean state | bodyless _ _ _ clean state =>
    rw [state]
    exact ModuleState.leadsTo_of_rank_le unexecuted clean (Nat.le_succ_of_le (late clean))

/-- An executed module stays executed in a step, unless its turn comes once more. -/
theorem SoundStep.executed_or_repeats (step : SoundStep host ρ ρ' m m') (staged : m.Staged ρ)
    (bodies : m.Bodies) (living : m.Living) (descending : m.Descending ρ)
    (executed : (m.store.record r).state = .executed) :
    (m'.store.record r).state = .executed ∨ m'.Repeats r := by
  have linked : m.Linked r := staged.linked r (by rw [executed]; trivial)
  have body : (m.store.record r).body = none := bodies.taken r (.inr executed)
  have known : r < m'.store.records.size :=
    Nat.lt_of_lt_of_le linked.1 step.rule.size_records_le
  cases step.rule.recordChange linked.1 with
  | same record => exact .inl (record.state.trans executed)
  | imported _ _ _ _ _ record | adopted _ _ _ _ _ record | deferred _ _ _ record
      | suspended _ _ _ record => exact .inl (by rw [record]; exact executed)
  | hooked control _ _ _ _ =>
    exact absurd (staged.instantiated r linked) (step.sound.not_instantiated control)
  | attached way _ _ _ => exact absurd linked (step.sound.not_linked way)
  | failed _ same record =>
    exact .inl (by rw [record, Record.state_poison, same.state, executed]; simp)
  | bodyFailed _ _ _ record => exact .inl (by rw [record, Record.state_poison, executed]; simp)
  | ended _ _ _ _ _ record | bodyless _ _ _ _ record =>
    exact .inl (by rw [record, Record.state_enter, executed]; rfl)
  | comes way _ next job record =>
    have alive := (descending.of_turn way).1.alive living
    refine .inr ⟨known, by rwa [step.rule.isAlive], ?_, .inr ⟨_, next, by rw [job.waits, body]⟩⟩
    simp [record, Record.state_enter, executed, ModuleState.error?]
  | collected way next _ _ alive _ record =>
    refine .inr ⟨known, by rwa [step.rule.isAlive], ?_, .inl (by rw [next, body])⟩
    simp [record, Record.state_enter, executed, ModuleState.error?]

/-- A module whose turn has come once more is executed again. -/
theorem SoundStep.repeats (step : SoundStep host ρ ρ' m m') (h : m.Repeats r) :
    (m'.store.record r).state = .executed ∨ m'.Repeats r := by
  rcases h.next with next | ⟨j, next, waits⟩
  · have store : m'.store = (m.store.setEvaluation r none).enter r .executed := by
      rw [step.next, Machine.step, next]
      simp [doWork, endBody, h.alive, mapStore, Machine.next, setEvaluation]
    left
    rw [store, record_enter_self (by simpa using h.known), record_setEvaluation_self h.known,
      Record.state_enter, h.state]
    rfl
  · obtain ⟨_, control, record, _⟩ := step.of_poll next waits
    refine .inr ⟨Nat.lt_of_lt_of_le h.known step.rule.size_records_le,
      by rw [step.rule.isAlive]; exact h.alive, by rw [record]; exact h.state, .inl control⟩

/-- The state of a module in a run leads to its next one, unless the turn of an executed module comes
once more. -/
private theorem SoundStep.leadsTo_or_repeats (step : SoundStep host ρ ρ' m m')
    (traced : Traced host ρ (m :: trace)) :
    (m.store.record r).state.LeadsTo (m'.store.record r).state ∨
      (m.store.record r).state = .executed ∧ m'.Repeats r := by
  rcases Nat.lt_or_ge r m.store.records.size with hr | hr
  · by_cases executed : (m.store.record r).state = .executed
    · rcases step.executed_or_repeats traced.staged traced.bodies traced.living traced.descending
        executed with executed' | repeats
      · exact .inl (by rw [executed, executed']; exact .refl _)
      · exact .inr ⟨executed, repeats⟩
    · exact .inl ((step.rule.recordChange hr).transition.leadsTo step.sound traced.staged executed)
  · rw [record_of_size_le hr]
    exact .inl (ModuleState.leadsTo_of_rank_le nofun rfl (Nat.zero_le _))

/-- Every state that a module has had leads to the one that it is in, unless the turn of an executed
module has just come once more. -/
theorem Traced.leadsTo_or_repeats (h : Traced host ρ (m :: trace)) (mem : x ∈ m :: trace) :
    (x.store.record r).state.LeadsTo (m.store.record r).state ∨
      (x.store.record r).state = .executed ∧ m.Repeats r := by
  generalize hl : m :: trace = states at h mem
  induction h generalizing m trace with
  | start base resolver memory =>
    cases hl
    rw [List.mem_singleton.mp mem]
    exact .inl (.refl _)
  | step traced step ih =>
    cases hl
    rcases List.mem_cons.mp mem with rfl | mem
    · exact .inl (.refl _)
    · rcases ih rfl mem with before | ⟨executed, repeats⟩
      · rcases step.leadsTo_or_repeats traced with now | ⟨executed, repeats⟩
        · exact .inl (before.trans now)
        · rw [executed] at before
          rcases before.executed_or with was | next
          · exact .inr ⟨was, repeats⟩
          · exact .inl (by rw [repeats.state]; exact next)
      · rw [executed]
        rcases step.repeats repeats with executed' | repeats
        · exact .inl (by rw [executed']; exact .refl _)
        · exact .inr ⟨rfl, repeats⟩
  | outside traced pause ih =>
    cases hl
    rcases List.mem_cons.mp mem with rfl | mem
    · exact .inl (.refl _)
    · rcases ih rfl mem with before | ⟨_, repeats⟩
      · exact .inl (by rwa [pause.change.kept.record])
      · obtain ⟨_, reply, hc⟩ := reply?_isSome.mp pause.rests
        rcases repeats.next with next | ⟨_, next, _⟩ <;> exact nomatch hc.symm.trans next

end Steps

section Runs

variable {host : Host C M} {m x : Machine C M} {trace : List (Machine C M)}

/-- Whenever host code runs or a request has been answered, every module has moved forward from
where it was at any time before: along its states, or to a failure unless it had been executed.
Executed and failed modules stay as they are, the failed ones with the same error. A module has an
error exactly when it has failed. -/
theorem Run.leadsTo_of_isObserved (h : Run host (m :: trace)) (observed : m.isObserved = true) :
    (∀ x ∈ trace, ∀ r, (x.store.stateOf r).LeadsTo (m.store.stateOf r)) ∧
      ∀ url error, m.store.error? url = some error ↔ m.store.state? url = some (.failed error) := by
  obtain ⟨ρ, traced⟩ := h.exists_roles
  refine ⟨fun x mem r => ?_, fun url error => ?_⟩
  · rcases traced.leadsTo_or_repeats (List.mem_cons_of_mem _ mem) with forward | ⟨_, repeats⟩
    · exact forward
    · exact nomatch observed.symm.trans repeats.isObserved_eq_false
  · rw [Store.error?, Option.bind_eq_some_iff]
    exact ⟨fun ⟨state, found, failed⟩ => by rw [found, ModuleState.error?_eq_some.mp failed],
      fun found => ⟨_, found, rfl⟩⟩

end Runs

/-- A module whose dependency is waited for while a body of the graph imports it once more. -/
def nestedModules : List (String × Script.Program) :=
  [("x:/m", { dependencies := [("x:/d", none)], body := some (.steps []) }),
   ("x:/d", { dependencies := [("x:/c", none)], body := some (.steps []) }),
   ("x:/c", { body := some (.steps [.await "x:/x" true]) }),
   ("x:/x", { dependencies := [("x:/d", none)] })]

section Nested

/-- The body of the module starts, after the turn of the dependency has come twice. -/
def nestedEnd : Machine Script.Code Script.Memory :=
  scriptedEnd nestedModules "x:/m" [.request (.poll (.waiting 0 2))] 120

/-- The states before. -/
def nestedTrace : List (Machine Script.Code Script.Memory) :=
  (scripted nestedModules "x:/m" [.request (.poll (.waiting 0 2))] 120).tail

theorem Run.leadsTo_of_isObserved_nested : nestedEnd.isObserved = true ∧
    (∃ x ∈ nestedTrace, x.isObserved = true ∧ x.store.stateOf 1 = .executed) ∧
    nestedEnd.store.stateOf 1 = .executed := by
  have observed : nestedEnd.isObserved = true := by decide +kernel
  have before : ∃ x ∈ nestedTrace, x.isObserved = true ∧ x.store.stateOf 1 = .executed := by
    decide +kernel
  have run : Run Script.host (nestedEnd :: nestedTrace) := .scripted nestedModules "x:/m" _ 120
  refine ⟨observed, before, ?_⟩
  obtain ⟨x, mem, _, executed⟩ := before
  have forward := (Run.leadsTo_of_isObserved run observed).1 x mem 1
  rwa [executed] at forward

end Nested

end Machine

end ModuleSystem.Loader
