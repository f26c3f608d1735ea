import ModuleSystem.Proofs.Loader.Turns

/-!
# Modules without a job

The record of a module names the job that executes it only as long as the job has to wait. As long as
no import is within another activity, a first attempt that has to wait is one at a job that has not
ended, and the job of a module that has been executed has ended. So no module that has been executed
names a job (`Machine.Idles`).

## Main results

* `Machine.Run.idle_of_executed` : no job is left for a module that has been executed.
-/

namespace ModuleSystem.Loader

variable {C M : Type}

namespace Machine

open Store

/-- What has been executed waits for no job. -/
structure Idles (ρ : Roles) (m : Machine C M) : Prop where
  ends : ∀ j r, ρ.Is j (.execute r) → (m.store.record r).state = .executed → ∃ outcome, m.Ends j outcome
  unfinished : m.control = .polled none → ∀ r i seen st, m.stack = .executing r i seen :: st →
    ∀ outcome, (m.store.job i).state ≠ .finished outcome
  idle : ∀ r, (m.store.record r).state = .executed → (m.store.record r).evaluation = none

section Idles

variable {host : Host C M} {ρ ρ' : Roles} {m m' : Machine C M} {trace : List (Machine C M)}
  {r : RecordId} {i j : JobId} {st : List (Frame C)} {seen : List RecordId}

/-- The job of a module that becomes executed ends. -/
private theorem Idles.ends_step (idles : m.Idles ρ) (turns : m.Turns ρ) (staged : m.Staged ρ)
    (step : SoundStep host ρ ρ' m m') (is' : ρ'.Is j (.execute r))
    (executed : (m'.store.record r).state = .executed) : ∃ outcome, m'.Ends j outcome := by
  rcases step.executes_cases is' with is | ⟨_, _, _, _, way, _⟩
  · cases (step.rule.recordChange (staged.executes j r is).1).transition with
    | stays state =>
      obtain ⟨outcome, ends⟩ := idles.ends j r is (state ▸ executed)
      exact ⟨outcome, .inl (step.ends (step.sound.lt_of_is is) ends)⟩
    | ended stack _ next _ _ _ =>
      obtain ⟨i, st, stack', is'⟩ := step.sound.executes_of_body ⟨[], stack.symm⟩
      obtain rfl := turns.single i j r is' is
      exact ⟨_, .inr ⟨next, st, stack'⟩⟩
    | bodyless hc stack next _ _ =>
      obtain ⟨i, st, stack', has⟩ := step.sound.has_of_work hc
      cases step.sound.fits_of_has has with
      | runBody is' =>
        obtain rfl := turns.single i j r is' is
        exact ⟨_, .inr ⟨next, st, stack.trans stack'⟩⟩
    | fails _ _ state | hooked _ _ _ state | attached _ _ _ state | comes _ _ _ _ _ state
        | collected _ _ _ _ state => exact nomatch executed.symm.trans state
  · obtain ⟨linked, _⟩ := (turns.of_turn way).2.1
    have walking := way.isWalking
    have known : r < m.store.records.size := (staged.linked r (by rw [linked]; trivial)).1
    cases (step.rule.recordChange known).transition with
    | stays state => exact nomatch executed.symm.trans (state.trans linked)
    | ended _ hc _ _ _ _ | bodyless hc _ _ _ _ =>
      rw [hc] at walking
      exact walking.elim
    | fails _ _ state | hooked _ _ _ state | attached _ _ _ state | comes _ _ _ _ _ state
        | collected _ _ _ _ state => exact nomatch executed.symm.trans state

/-- A first attempt has to wait for a job that is being advanced, or has just been put aside. -/
private theorem SoundStep.unfinished (step : SoundStep host ρ ρ' m m')
    (next : m'.control = .polled none) (stack : m'.stack = .executing r i seen :: st)
    (outcome : Outcome) : (m'.store.job i).state ≠ .finished outcome := by
  have rule := step.rule
  have sound := step.sound
  cases rule
  case move move => cases move <;> exact nomatch next
  case publishes way => rcases way.control with h | h <;> exact nomatch h.symm.trans next
  case handsOver after => rcases after.control with h | h <;> exact nomatch h.symm.trans next
  case pollRunning s memory st' job l running _ =>
    dsimp only at stack
    subst stack
    obtain ⟨_, polls | ⟨_, polls, _⟩ | polls⟩ := fits_executing sound.control <;> cases polls
    rw [state_job_subscribe, running]
    nofun
  case putsAside s memory st' _ work =>
    dsimp only at stack
    subst stack
    obtain ⟨_, awaits, _⟩ := sound.control
    obtain _ | ⟨⟨_⟩, _ | ⟨fits, _⟩⟩ := awaits
    cases fits with
    | executing is =>
      rw [state_job_setJob, if_pos ⟨rfl, sound.lt_of_is is⟩]
      nofun
  all_goals exact nomatch next

/-- What becomes executed waits for no job. -/
private theorem Idles.idle_step (idles : m.Idles ρ) (turns : m.Turns ρ)
    (step : SoundStep host ρ ρ' m m') (executed : (m'.store.record r).state = .executed) :
    (m'.store.record r).evaluation = none := by
  rcases Nat.lt_or_ge r m.store.records.size with known | unknown
  · cases step.rule.recordChange known with
    | same record =>
      rw [record.evaluation]
      exact idles.idle r (record.state ▸ executed)
    | imported _ _ _ _ _ record | adopted _ _ _ _ _ record =>
      rw [record] at executed ⊢
      exact idles.idle r executed
    | failed _ same record =>
      rw [record] at executed ⊢
      rw [Record.state_poison, same.state] at executed
      rw [Record.poison_same.2.2.2.2.1, same.evaluation]
      split_ifs at executed
      exact idles.idle r executed
    | deferred way _ _ record =>
      rw [record] at executed
      exact nomatch executed.symm.trans (turns.of_turn way).2.1.1
    | suspended stack hc _ record =>
      rw [record] at executed
      have control := step.sound.control
      rw [hc, stack] at control
      obtain ⟨is, _⟩ := fits_executing control
      obtain ⟨outcome, finished | ⟨hc', _⟩⟩ := idles.ends _ r is executed
      · exact absurd finished (idles.unfinished hc r _ _ _ stack outcome)
      · exact nomatch hc.symm.trans hc'
    | ended _ _ _ _ _ record | bodyless _ _ _ _ record => simp [record]
    | bodyFailed _ _ _ record => simp [record]
    | hooked _ _ _ _ record | attached _ _ _ record | comes _ _ _ _ record
        | collected _ _ _ _ _ _ record =>
      rw [record] at executed
      rcases Record.state_enter_cases with h | ⟨_, _, h⟩ <;> exact nomatch h.symm.trans executed
  · rcases Nat.lt_or_ge r m'.store.records.size with known' | unknown'
    · cases step.rule.makes.newRecord unknown known' with
      | made record _ _ _ | defined _ record _ _ => simp [record]
    · simp [record_of_size_le unknown', Record.blank]

end Idles

section Runs

variable {host : Host C M} {ρ : Roles} {m : Machine C M} {trace : List (Machine C M)} {r : RecordId}

private theorem SoundPause.idles {m' : Machine C M} (pause : SoundPause ρ m m')
    (idles : m.Idles ρ) : m'.Idles ρ where
  ends j r is executed := by
    rw [pause.change.kept.record] at executed
    exact (idles.ends j r is executed).imp fun _ => pause.ends.mpr
  unfinished hc := by
    rcases pause.control with ⟨_, h⟩ | ⟨_, h⟩ <;> exact nomatch h.symm.trans hc
  idle := by
    rw [pause.change.kept.record]
    exact idles.idle

/-- No job is left for a module that has been executed, in every run in which host code neither polls
imports nor gives up within one. -/
theorem Traced.idles (h : Traced host ρ (m :: trace)) (calm : ∀ x ∈ m :: trace, x.Calm) :
    m.Idles ρ := by
  refine h.invariant_of (P := fun ρ m => m.Idles ρ) (fun _ _ _ => ?_) ?_ ?_ calm
  · exact ⟨fun _ _ is => absurd is.lt (Nat.not_lt_zero _), nofun, fun r _ => by rw [record_start]; rfl⟩
  · intro _ _ m m' trace traced calm step idles
    have turns := traced.turns fun x mem => calm x (List.mem_cons_of_mem _ mem)
    exact ⟨fun _ _ => idles.ends_step turns traced.staged step,
      fun next _ _ _ _ stack => step.unfinished next stack, fun _ => idles.idle_step turns step⟩
  · exact fun _ pause idles => pause.idles idles

theorem Run.idle_of_executed (h : Run host (m :: trace)) (calm : ∀ x ∈ m :: trace, x.Calm)
    (executed : (m.store.record r).state = .executed) : (m.store.record r).evaluation = none := by
  obtain ⟨ρ, traced⟩ := h.exists_roles
  exact (traced.idles calm).idle r executed

end Runs

end Machine

end ModuleSystem.Loader
