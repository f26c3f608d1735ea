import ModuleSystem.Proofs.Loader.Trace

/-!
# Answers to polls

An import that waits is advanced by the activity that polls its job, and this activity stays where
it is until it hands the outcome of the job over as the answer.

## Main results

* `Machine.Traced.answer`, `Machine.Traced.answer_settled` : what the answer to a poll is.
-/

namespace ModuleSystem.Loader

variable {C M : Type}

/-- The handle of an import whose result is known at once. -/
def ImportHandle.settled : Except LoaderError RecordId → ImportHandle
  | .ok r => .executed r
  | .error error => .failed error

/-- An import is polled through the job that does it. -/
theorem Awaits.of_importing {ρ : Roles} {slot : Slot} {r : RecordId} {st : List (Frame C)}
    (h : Awaits ρ slot (.importing r :: st)) : ∃ j, slot = .polled j ∧ ρ.Is j (.evaluate r) := by
  rcases h with _ | ⟨fits, _⟩
  cases fits with
  | importing is => exact ⟨_, rfl, is⟩

namespace Machine

open Store

section Importing

variable {host : Host C M} {ρ ρ' : Roles} {m m' : Machine C M} {trace : List (Machine C M)}
  {r : RecordId} {j : JobId} {st : List (Frame C)}

/-- The activity that polls an import stays until the job has been polled. -/
theorem SoundStep.of_importing (step : SoundStep host ρ ρ' m m')
    (stack : m.stack = .importing r :: st) :
    .importing r :: st <:+ m'.stack ∨ m'.stack = st ∧ (m'.control = .unwind ∨
      ∃ outcome, m.control = .polled outcome ∧ m'.store = m.store ∧
        m'.control = .reply (.progress (outcome.map fun o => o.map fun _ => r))) := by
  have control := step.sound.control
  rw [stack] at control
  have next := step.next
  cases hc : m.control with
  | poll i =>
    refine .inl ?_
    rw [next]
    cases state : (m.store.job i).state <;>
      simp [Machine.step, hc, poll, state, Machine.next, push, mapStore, stack]
  | polled outcome =>
    refine .inr ?_
    rw [next]
    simp [Machine.step, hc, polled, stack, pop]
  | unwind =>
    refine .inr ?_
    rw [next]
    simp [Machine.step, hc, unwind, stack, pop]
  | host code | serve request | drain | drained =>
    rw [hc] at control
    obtain ⟨_, h⟩ := Awaits.of_importing control
    cases h.1
  | reply reply =>
    rw [hc] at control
    obtain ⟨_, h⟩ := control.1.of_importing
    cases h.1
  | work w | paused w | visit module seen =>
    rw [hc] at control
    obtain ⟨_, awaits, _⟩ := control
    obtain ⟨_, h⟩ := awaits.of_importing
    cases h.1
  | ended outcome =>
    rw [hc] at control
    obtain ⟨_, awaits⟩ := control
    obtain ⟨_, h⟩ := awaits.of_importing
    cases h.1
  | link node seen | visited result seen =>
    rw [hc] at control
    obtain ⟨_, _, awaits, _⟩ := control
    obtain ⟨_, h⟩ := awaits.of_importing
    cases h.1
  | linked result seen =>
    rw [hc] at control
    obtain ⟨_, _, _, awaits, _⟩ := control
    obtain ⟨_, h⟩ := awaits.of_importing
    cases h.1

/-- While a poll of an import that waits is being served, its activity is under way. -/
private theorem Traced.importing (h : Traced host ρ (m :: trace))
    (serves : Serves (.poll (.waiting r j)) st (m :: trace)) :
    m.control = .serve (.poll (.waiting r j)) ∧ m.stack = st ∨
      .importing r :: st <:+ m.stack ∧ ρ.Is j (.evaluate r) := by
  generalize hl : m :: trace = states at serves
  induction serves generalizing ρ m trace with
  | starts control stack =>
    cases hl
    exact .inl ⟨control, stack⟩
  | @goesOn m₁ rest serves above inner ih =>
    cases hl
    cases h with
    | start => cases serves
    | @step ρ₀ _ m₀ _ _ h step =>
      refine .inr ?_
      rcases ih h rfl with ⟨control, stack⟩ | ⟨below, is⟩
      · have next : m₁.stack = .importing r :: m₀.stack ∧ m₁.control = .poll j := by
          rw [step.next]
          simp [Machine.step, control, serve, push]
        have fits := step.sound'.control
        rw [next.1, next.2] at fits
        obtain ⟨i, hi, is⟩ := Awaits.of_importing fits
        obtain rfl := Slot.polled.inj hi
        rw [next.1, stack]
        exact ⟨List.suffix_refl _, is⟩
      · refine ⟨?_, is.mono step.follow.le⟩
        by_cases top : m₀.stack = .importing r :: st
        · rcases step.of_importing top with below | ⟨stack, _⟩
          · exact below
          · exact absurd stack inner
        · exact step.rule.suffix below top
    | outside h pause =>
      have empty := (reply?_isSome.mp pause.rests).1
      obtain ⟨_, reply, hc⟩ := reply?_isSome.mp pause.rests
      rcases ih h rfl with ⟨control, _⟩ | ⟨below, _⟩
      · cases hc.symm.trans control
      · rw [empty] at below
        cases List.suffix_nil.mp below

/-- The answer to a poll of an import that waits is how its job stands. -/
theorem Traced.answer {reply : Reply} (h : Traced host ρ (m :: trace))
    (answers : Answers (.poll (.waiting r j)) reply (m :: trace)) :
    ρ.Is j (.evaluate r) ∧ ∃ outcome, reply = .progress (outcome.map fun o => o.map fun _ => r) ∧
      ∀ o, outcome = some o → (m.store.job j).state = .finished o := by
  obtain ⟨hc, serves⟩ := answers
  cases h with
  | start => cases serves
  | @step ρ₀ _ m₀ _ _ h step =>
    rcases h.importing serves with ⟨control, stack⟩ | ⟨below, is⟩
    · have next : m.control = .poll j := by
        rw [step.next]
        simp [Machine.step, control, serve, push]
      cases hc.symm.trans next
    · by_cases top : m₀.stack = .importing r :: m.stack
      · rcases step.of_importing top with below | ⟨_, hc' | ⟨outcome, hp, store, hc'⟩⟩
        · exact absurd below.length_le (by simp)
        · cases hc.symm.trans hc'
        · obtain rfl := Control.reply.inj (hc.symm.trans hc')
          refine ⟨is.mono step.follow.le, outcome, rfl, fun o ho => ?_⟩
          have control := step.sound.control
          rw [hp, top] at control
          obtain ⟨i, awaits, finished⟩ := control
          obtain ⟨_, hi, is'⟩ := awaits.of_importing
          obtain rfl := Slot.polled.inj hi
          have fits := step.sound.store
          have same : i = j := Option.some.inj
            ((fits.evaluates i r is').2.symm.trans (fits.evaluates j r is).2)
          rw [store, ← same]
          exact finished o ho
      · exact absurd (step.rule.suffix below top).length_le (by simp)
  | outside h pause =>
    obtain ⟨empty, reply, hc⟩ := reply?_isSome.mp pause.rests
    rcases h.importing serves with ⟨control, _⟩ | ⟨below, _⟩
    · cases hc.symm.trans control
    · rw [empty] at below
      cases List.suffix_nil.mp below

/-- A handle of an import that needs no advancing answers at once. -/
private theorem Traced.serving {request : Request} {reply : Reply}
    (now : ∀ m : Machine C M, m.control = .serve request →
      (m.step host).stack = m.stack ∧ (m.step host).control = .reply reply)
    (h : Traced host ρ (m :: trace)) (serves : Serves request st (m :: trace)) :
    m.control = .serve request ∧ m.stack = st := by
  generalize hl : m :: trace = states at serves
  induction serves generalizing ρ m trace with
  | starts control stack =>
    cases hl
    exact ⟨control, stack⟩
  | @goesOn m₁ rest serves above inner ih =>
    cases hl
    cases h with
    | start => exact nomatch serves
    | @step ρ₀ _ m₀ _ _ h step =>
      obtain ⟨control, stack⟩ := ih h rfl
      refine absurd ?_ inner
      rw [step.next, (now m₀ control).1, stack]
    | outside h pause =>
      obtain ⟨_, reply, hc⟩ := reply?_isSome.mp pause.rests
      exact nomatch hc.symm.trans (ih h rfl).1

private theorem Traced.answer_now {request : Request} {reply reply' : Reply}
    (now : ∀ m : Machine C M, m.control = .serve request →
      (m.step host).stack = m.stack ∧ (m.step host).control = .reply reply)
    (h : Traced host ρ (m :: trace)) (answers : Answers request reply' (m :: trace)) :
    reply' = reply := by
  obtain ⟨hc, serves⟩ := answers
  cases h with
  | start => exact nomatch serves
  | @step ρ₀ _ m₀ _ _ h step =>
    have control := (now m₀ (h.serving now serves).1).2
    rw [← step.next, hc] at control
    exact Control.reply.inj control
  | outside h pause =>
    obtain ⟨_, reply, hc'⟩ := reply?_isSome.mp pause.rests
    exact nomatch hc'.symm.trans (h.serving now serves).1

/-- A handle of an import whose result is known has one answer only. -/
theorem Traced.answer_settled {result : Except LoaderError RecordId} {reply : Reply}
    (h : Traced host ρ (m :: trace))
    (answers : Answers (.poll (.settled result)) reply (m :: trace)) :
    reply = .progress (some result) := by
  refine h.answer_now (fun m hc => ?_) answers
  cases result <;> simp [Machine.step, hc, ImportHandle.settled, serve, Machine.next]

/-- Every part of a run that starts where the run does is a run. -/
theorem Traced.suffix {states : List (Machine C M)} (h : Traced host ρ trace)
    (below : states <:+ trace) (ne : states ≠ []) : ∃ ρ, Traced host ρ states := by
  obtain ⟨m', earlier, rfl⟩ := List.exists_cons_of_ne_nil ne
  obtain ⟨m, trace, rfl⟩ :=
    List.exists_cons_of_ne_nil (List.ne_nil_of_mem (below.subset List.mem_cons_self))
  obtain ⟨ρ', traced, _⟩ := h.persists below
  exact ⟨ρ', traced⟩

/-- An import that ends well does so with the namespace of the module in its handle. -/
theorem Traced.yields {handle : ImportHandle} (h : Traced host ρ trace)
    (yields : Yields trace handle r) : handle = .executed r ∨ ∃ j, handle = .waiting r j := by
  obtain ⟨states, below, answers⟩ := yields
  cases states with
  | nil => exact answers.elim
  | cons m states =>
    obtain ⟨ρ', traced⟩ := h.suffix below nofun
    cases handle with
    | failed error =>
      have answer : Reply.progress (some (.ok r)) = .progress (some (.error error)) :=
        traced.answer_settled answers
      cases answer
    | executed r' =>
      have answer : Reply.progress (some (.ok r)) = .progress (some (.ok r')) :=
        traced.answer_settled answers
      cases answer
      exact .inl rfl
    | waiting r' j =>
      obtain ⟨_, outcome, reply, _⟩ := traced.answer answers
      cases outcome with
      | none => cases reply
      | some outcome =>
        cases outcome with
        | error error => cases reply
        | ok =>
          cases reply
          exact .inr ⟨j, rfl⟩

end Importing

end Machine

end ModuleSystem.Loader
