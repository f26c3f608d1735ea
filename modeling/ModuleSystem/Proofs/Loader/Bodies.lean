import ModuleSystem.Proofs.Loader.Stages

/-!
# Hooks and bodies

The hook of a module is called by the job that instantiates it, which never comes back to that. The
body that the hook registers is kept in the record until the turn of the module comes. It is then
taken out and held by the job that has been made to start it, for at most two steps
(`Machine.HoldsBody`). Any other attempt to execute the module finds no body any more.

## Main definitions

* `Machine.Hooks`, `Machine.Bodies` : where the hooks and bodies are that have not been called.

## Main results

* `Machine.Traced.hooks`, `Machine.Traced.bodies` : both hold in every run.
-/

namespace ModuleSystem.Loader

variable {C M : Type}

namespace Machine

open Store

section Work

variable {ρ : Roles} {m : Machine C M} {r : RecordId} {j : JobId} {w : Work C}

/-- The work that comes next is left of the job that is being advanced. -/
theorem Sound.has_of_work (sound : m.Sound ρ) (hc : m.control = .work w) :
    ∃ j st, m.stack = .advancing j :: st ∧ m.Has j w := by
  have control := sound.control
  rw [hc] at control
  obtain ⟨j, awaits, _⟩ := control
  obtain ⟨st, stack, _⟩ := awaits.of_work
  exact ⟨j, st, stack, .next stack hc⟩

/-- The work that is left of a job fits what the job is for. -/
theorem Sound.fits_of_has (sound : m.Sound ρ) (h : m.Has j w) : w.Fits ρ j := by
  have control := sound.control
  cases h with
  | waits state => exact sound.store.work j w state
  | next stack hc =>
    rw [hc, stack] at control
    obtain ⟨i, awaits, fits⟩ := control
    obtain ⟨_, stack', _⟩ := awaits.of_work
    cases stack'
    exact fits
  | paused stack hc =>
    rw [hc, stack] at control
    obtain ⟨i, awaits, fits, _⟩ := control
    obtain ⟨_, stack', _⟩ := awaits.of_work
    cases stack'
    exact fits

/-- A job that has some work left waits for something, or is being advanced. -/
theorem Sound.state_of_has (sound : m.Sound ρ) (has : m.Has j w) :
    (m.store.job j).state = .waiting w ∨ (m.store.job j).state = .running := by
  cases has with
  | waits state => exact .inl state
  | next stack _ => exact .inr (sound.running_of_mem (stack ▸ List.mem_cons_self))
  | paused stack _ => exact .inr (sound.running_of_mem (stack ▸ List.mem_cons_self))

/-- A job that is being advanced does not wait. -/
theorem Sound.not_waiting (sound : m.Sound ρ) (h : j ∈ advanced m.stack) :
    (m.store.job j).state ≠ .waiting w :=
  fun state => nomatch state.symm.trans ((sound.running j).mpr h)

end Work

/-! ### Hooks -/

/-- The hooks that have been called are not to be called again. -/
structure Hooks (m : Machine C M) : Prop where
  known : ∀ r, .hookCalled r ∈ m.store.milestones → r < m.store.records.size
  idle : ∀ r j, .hookCalled r ∈ m.store.milestones → ¬ m.Has j (.instantiate r)
  once : ∀ r, m.store.milestones.count (.hookCalled r) ≤ 1

section Hooks

variable {host : Host C M} {ρ ρ' : Roles} {m m' : Machine C M} {trace : List (Machine C M)}
  {r : RecordId} {j : JobId}

private theorem Hooks.known_step (hooks : m.Hooks) (step : SoundStep host ρ ρ' m m')
    (h : .hookCalled r ∈ m'.store.milestones) : r < m.store.records.size := by
  rcases step.rule.happens_of_mem h trivial with h | ⟨hc, _, _⟩
  · exact hooks.known r h
  · obtain ⟨j, _, _, has⟩ := step.sound.has_of_work hc
    cases step.sound.fits_of_has has with
    | instantiate is => exact (step.sound.store.instantiates j r is).1

private theorem Hooks.idle_step (hooks : m.Hooks) (step : SoundStep host ρ ρ' m m')
    (h : .hookCalled r ∈ m'.store.milestones) (has' : m'.Has j (.instantiate r)) : False := by
  have known := hooks.known_step step h
  rcases step.rule.comes has' with has | ⟨hj, state⟩ | ⟨_, continues⟩
  · rcases step.rule.happens_of_mem h trivial with h | ⟨hc, stack, _⟩
    · exact hooks.idle r j h has
    · -- The job that calls the hook is the one that instantiates the module.
      obtain ⟨i, st, stack', has₀⟩ := step.sound.has_of_work hc
      cases step.sound.fits_of_has has with
      | instantiate is =>
        cases step.sound.fits_of_has has₀ with
        | instantiate is₀ =>
          have same : i = j := (step.sound.store.instantiates i r is₀).2.symm.trans
            (step.sound.store.instantiates j r is).2
          subst same
          cases has' with
          | waits state =>
            refine step.sound'.not_waiting ?_ state
            rw [stack, stack']
            exact List.mem_cons_self
          | next stack'' _ | paused stack'' _ => exact nomatch stack.symm.trans stack''
  · have hj' : j < m'.store.jobs.size := Nat.lt_of_not_le fun hle =>
      nomatch state.symm.trans (state_job_of_size_le hle)
    have new := step.rule.makes.newJob (fun _ _ h => step.sound.store.lt_of_lookup h) hj hj'
    cases new with
    | instantiate hr _ _ state' =>
      cases state.symm.trans state'
      exact Nat.not_lt_of_le hr known
    | link _ _ _ state' | graph _ _ _ state' | deferred _ _ _ state' _ _ | turn _ _ _ _ state' _
        | ready _ _ _ _ state' => exact nomatch state.symm.trans state'
  · exact nomatch continues

theorem Hooks.step (hooks : m.Hooks) (step : SoundStep host ρ ρ' m m') : m'.Hooks where
  known r h := Nat.lt_of_lt_of_le (hooks.known_step step h) step.rule.size_records_le
  idle r j h has := hooks.idle_step step h has
  once r := by
    rcases step.rule.happens (e := .hookCalled r) trivial with count | ⟨milestones, hc, _, _⟩
    · rw [count]
      exact hooks.once r
    · obtain ⟨j, _, _, has⟩ := step.sound.has_of_work hc
      have fresh : .hookCalled r ∉ m.store.milestones := fun h => hooks.idle r j h has
      simp [milestones, List.count_eq_zero.mpr fresh]

theorem Hooks.pause (hooks : m.Hooks) (pause : SoundPause ρ m m') : m'.Hooks := by
  have kept := pause.change.kept
  refine ⟨?_, fun r j h has => ?_, ?_⟩
  · rw [kept.milestones, kept.size_records]
    exact hooks.known
  · rw [kept.milestones] at h
    exact hooks.idle r j h (pause.has has)
  · rw [kept.milestones]
    exact hooks.once

/-- Hooks that have been called are not called again, in every run. -/
theorem Traced.hooks (h : Traced host ρ (m :: trace)) : m.Hooks :=
  h.invariant (P := fun _ m => m.Hooks) (fun _ _ _ => ⟨nofun, nofun, fun _ => Nat.zero_le 1⟩)
    (fun _ step hooks => hooks.step step) fun _ pause hooks => hooks.pause pause

end Hooks

/-! ### Bodies -/

/-- The body of a module is held by a job that starts it next. -/
def HoldsBody (m : Machine C M) (r : RecordId) : Prop :=
  ∃ code, m.control = .work (.runBody r (some code)) ∨
    ∃ j, m.control = .poll j ∧ (m.store.job j).state = .waiting (.runBody r (some code))

/-- The turn of a module has come: it is linked, and its body is not in its record any more. -/
structure Begun (m : Machine C M) (r : RecordId) : Prop where
  linked : m.Linked r
  body : (m.store.record r).body = none
  state : (m.store.record r).state = .executing ∨ (m.store.record r).state = .executed ∨
    ∃ error, (m.store.record r).state = .failed error

/-- The bodies that have been started are not to be started again. -/
structure Bodies (m : Machine C M) : Prop where
  running : ∀ j r body, m.Has j (.runBody r body) → m.Begun r
  suspended : ∀ j r code, m.Has j (.awaitBody r code) → m.Begun r
  active : ∀ r, .body r ∈ m.stack → m.Begun r
  started : ∀ r, .bodyStarted r ∈ m.store.milestones → m.Begun r
  taken : ∀ r, (m.store.record r).state = .executing ∨ (m.store.record r).state = .executed →
    (m.store.record r).body = none
  adopted : ∀ r, (m.store.record r).body ≠ none → m.Instantiated r
  polled : ∀ j r body, (m.store.job j).state = .waiting (.runBody r body) → m.control = .poll j
  held : ∀ r, m.HoldsBody r → .bodyStarted r ∉ m.store.milestones
  heldState : ∀ r, m.HoldsBody r → (m.store.record r).state ≠ .executed
  once : ∀ r, m.store.milestones.count (.bodyStarted r) ≤ 1

section Bodies

variable {host : Host C M} {ρ ρ' : Roles} {m m' : Machine C M} {trace : List (Machine C M)}
  {r : RecordId} {j : JobId} {st : List (Frame C)}

/-- A module whose hook is running has not been instantiated. -/
theorem Sound.not_instantiated_of_hook (sound : m.Sound ρ) {code : C}
    (stack : m.stack = .hook r :: st) (hc : m.control = .host code) : ¬ m.Instantiated r := by
  rintro ⟨_, ends⟩
  have control := sound.control
  rw [hc, stack] at control
  obtain _ | ⟨fits, below⟩ := control
  cases fits with
  | hook is =>
    obtain ⟨st', stack', _⟩ := below.of_work
    rw [(sound.store.instantiates _ r is).2] at ends
    rw [stack'] at stack
    have running :=
      sound.running_of_mem (stack ▸ List.mem_cons_of_mem _ List.mem_cons_self)
    rcases ends with finished | ⟨hc', _⟩
    · exact nomatch running.symm.trans finished
    · exact nomatch hc.symm.trans hc'

/-- A module that is being linked has not been linked. -/
theorem Sound.not_linked_of_work (sound : m.Sound ρ) (awaits : Awaits ρ (.work j) st)
    (below : st <:+ m.stack) (is : ρ.Is j (.link r)) (busy : ∀ outcome, m.control ≠ .ended outcome) :
    ¬ m.Linked r := by
  rintro ⟨_, ends⟩
  obtain ⟨st', rfl, _⟩ := awaits.of_work
  rw [(sound.store.links j r is).2] at ends
  have running := sound.running_of_mem (below.subset List.mem_cons_self)
  rcases ends with finished | ⟨hc, _⟩
  · exact nomatch running.symm.trans finished
  · exact busy _ hc

/-- A module whose setters are handed over has not been linked. -/
theorem Sound.not_linked (sound : m.Sound ρ) {dependencies rest : List Dependency} {s : Store C}
    (way : HandsOver m.store m.stack m.control r dependencies rest s st) : ¬ m.Linked r := by
  obtain ⟨j, awaits, is, _⟩ := way.awaits sound.control
  exact sound.not_linked_of_work awaits way.suffix is fun _ => way.not_ended

theorem SoundStep.begun (step : SoundStep host ρ ρ' m m') (staged : m.Staged ρ) (h : m.Begun r) :
    m'.Begun r := by
  have change := step.rule.recordChange h.linked.1
  refine ⟨step.linked h.linked, ?_, ?_⟩
  · cases change with
    | same record => rw [record.body, h.body]
    | failed _ same record =>
      rw [record, Record.body_poison, same.body, h.body]
      split_ifs <;> rfl
    | bodyFailed _ _ _ record =>
      rw [record, Record.body_poison]
      split_ifs
      · exact h.body
      · rfl
    | adopted stack hc _ _ _ _ =>
      exact absurd (staged.instantiated r h.linked) (step.sound.not_instantiated_of_hook stack hc)
    | attached _ _ listened record => simp [record, listened.body, h.body]
    | imported _ _ _ _ _ record | hooked _ _ _ _ record | deferred _ _ _ record
        | comes _ _ _ _ record | collected _ _ _ _ _ _ record | suspended _ _ _ record
        | ended _ _ _ _ _ record | bodyless _ _ _ _ record => simp [record, h.body]
  · cases change.transition with
    | stays state => simpa only [state] using h.state
    | fails _ _ state => exact .inr (.inr ⟨_, state⟩)
    | hooked hc _ _ _ =>
      exact absurd (staged.instantiated r h.linked) (step.sound.not_instantiated hc)
    | attached way _ _ _ => exact absurd h.linked (step.sound.not_linked way)
    | comes _ _ _ _ _ state | collected _ _ _ _ state => exact .inl state
    | ended _ _ _ _ _ state | bodyless _ _ _ _ state => exact .inr (.inl state)

/-- A job that waits takes up its work when it is polled. -/
theorem SoundStep.of_poll (step : SoundStep host ρ ρ' m m') {w : Work C} (hc : m.control = .poll j)
    (state : (m.store.job j).state = .waiting w) :
    m'.stack = .advancing j :: m.stack ∧ m'.control = .work w ∧
      m'.store.record = m.store.record ∧ m'.store.milestones = m.store.milestones := by
  rw [step.next]
  simp [Machine.step, hc, poll, state, push, mapStore]

/-- A body that is held by its job starts. -/
theorem SoundStep.of_body (step : SoundStep host ρ ρ' m m') {code : C}
    (hc : m.control = .work (.runBody r (some code))) :
    m'.stack = .body r :: m.stack ∧ m'.control = .host code ∧
      m'.store.milestones = .bodyStarted r :: m.store.milestones := by
  rw [step.next]
  refine ⟨?_, ?_, ?_⟩
  · simp [Machine.step, hc, doWork, push, mapStore]
  · simp [Machine.step, hc, doWork, push, mapStore]
  · simp only [Machine.step, hc, doWork, push, mapStore]
    rfl

/-- A job that is about to start a body goes on to be advanced. -/
theorem SoundStep.suffix_of_runBody (step : SoundStep host ρ ρ' m m') {body : Option C}
    (hc : m.control = .work (.runBody r body)) : m.stack <:+ m'.stack := by
  cases body with
  | some code =>
    rw [(step.of_body hc).1]
    exact List.suffix_cons _ _
  | none =>
    rw [step.next]
    simp only [Machine.step, hc, doWork, endBody]
    split <;> exact List.suffix_refl _

/-- Work of which a new job has some left is that of the job. -/
theorem SoundStep.newJob (step : SoundStep host ρ ρ' m m') {w : Work C}
    (hj : m.store.jobs.size ≤ j) (state : (m'.store.job j).state = .waiting w) :
    NewJob m m' j :=
  step.rule.makes.newJob (fun _ _ h => step.sound.store.lt_of_lookup h) hj
    (Nat.lt_of_not_le fun hle => nomatch state.symm.trans (state_job_of_size_le hle))

/-- How a job comes to be about to start a body. -/
private theorem SoundStep.runs_cases (step : SoundStep host ρ ρ' m m') (staged : m.Staged ρ)
    {body : Option C} (h : m'.Has j (.runBody r body)) :
    m.Has j (.runBody r body) ∨
      (m'.control = .poll j ∨ ∃ st, m'.stack = .advancing j :: st) ∧
      (m.store.record r).body = body ∧ m.Linked r ∧ Taken m m' r := by
  rcases step.rule.comes h with has | ⟨hj, state⟩ | ⟨advancing, continues⟩
  · exact .inl has
  · cases step.newJob hj state with
    | turn _ way _ next state' taken =>
      obtain ⟨rfl, rfl⟩ := Work.runBody.inj (JobState.waiting.inj (state.symm.trans state'))
      exact .inr ⟨.inl next, rfl, staged.of_turn way, taken⟩
    | instantiate _ _ _ state' | link _ _ _ state' | graph _ _ _ state' | deferred _ _ _ state' _ _
        | ready _ _ _ _ state' => exact nomatch state.symm.trans state'
  · generalize hw : Work.runBody r body = w at continues
    cases continues with
    | collected way _ _ _ _ taken =>
      obtain ⟨rfl, rfl⟩ := Work.runBody.inj hw
      obtain ⟨_, _, is, _⟩ := way.awaits step.sound.control
      exact .inr ⟨.inr advancing, rfl, staged.executes _ r is, taken⟩
    | _ => exact nomatch hw

private theorem Bodies.polled_step (bodies : m.Bodies) (step : SoundStep host ρ ρ' m m')
    (staged : m.Staged ρ) {body : Option C}
    (state : (m'.store.job j).state = .waiting (.runBody r body)) : m'.control = .poll j := by
  have idle : j ∉ advanced m'.stack := fun h => step.sound'.not_waiting h state
  rcases step.runs_cases staged (.waits state) with has | ⟨next | ⟨st, stack⟩, _⟩
  · refine absurd ?_ idle
    cases has with
    | waits state =>
      rw [(step.of_poll (bodies.polled j r body state) state).1]
      exact List.mem_cons_self
    | next stack hc =>
      refine mem_advanced.mpr ((step.suffix_of_runBody hc).subset ?_)
      rw [stack]
      exact List.mem_cons_self
    | paused stack hc =>
      have control := step.sound.control
      rw [hc] at control
      obtain ⟨_, _, _, pauses⟩ := control
      exact pauses.elim
  · exact next
  · exact absurd (by rw [stack]; exact List.mem_cons_self) idle

/-- A body is held that was held before a step or in the record. -/
private theorem Bodies.holds_step (bodies : m.Bodies) (step : SoundStep host ρ ρ' m m')
    (staged : m.Staged ρ) (h : m'.HoldsBody r) :
    m.HoldsBody r ∨ r < m.store.records.size ∧ (m.store.record r).body ≠ none ∧ Taken m m' r := by
  have has : ∃ j code, m'.Has j (.runBody r (some code)) := by
    obtain ⟨code, hc | ⟨j, _, state⟩⟩ := h
    · obtain ⟨j, _, _, has⟩ := step.sound'.has_of_work hc
      exact ⟨j, code, has⟩
    · exact ⟨j, code, .waits state⟩
  obtain ⟨j, code, has⟩ := has
  rcases step.runs_cases staged has with has | ⟨_, body, linked, taken⟩
  · refine .inl ⟨code, ?_⟩
    cases has with
    | waits state => exact .inr ⟨j, bodies.polled j r _ state, state⟩
    | next _ hc => exact .inl hc
    | paused _ hc =>
      have control := step.sound.control
      rw [hc] at control
      obtain ⟨_, _, _, pauses⟩ := control
      exact pauses.elim
  · exact .inr ⟨linked.1, by rw [body]; simp, taken⟩

private theorem Bodies.begun_step (bodies : m.Bodies) (step : SoundStep host ρ ρ' m m')
    (staged : m.Staged ρ) {body : Option C} (h : m'.Has j (.runBody r body)) : m'.Begun r := by
  rcases step.runs_cases staged h with has | ⟨_, _, linked, taken⟩
  · exact step.begun staged (bodies.running j r body has)
  · exact ⟨step.linked linked, taken.body, (taken.state linked.1).imp_right .inr⟩

private theorem Bodies.taken_step (bodies : m.Bodies) (step : SoundStep host ρ ρ' m m')
    (staged : m.Staged ρ)
    (h : (m'.store.record r).state = .executing ∨ (m'.store.record r).state = .executed) :
    (m'.store.record r).body = none := by
  rcases Nat.lt_or_ge r m.store.records.size with hr | hr
  · have excluded : ∀ {state}, (m'.store.record r).state = state →
        state ≠ .executing → state ≠ .executed → (m'.store.record r).body = none := by
      intro state hs h₁ h₂
      rw [hs] at h
      exact absurd h (not_or.mpr ⟨h₁, h₂⟩)
    cases (step.rule.recordChange hr).transition with
    | stays state =>
      rw [state] at h
      have linked : m.Linked r := staged.linked r (by rcases h with h | h <;> rw [h] <;> trivial)
      exact (step.begun staged ⟨linked, bodies.taken r h, h.imp_right .inl⟩).body
    | fails _ _ state | hooked _ _ _ state | attached _ _ _ state =>
      exact excluded state nofun nofun
    | comes _ _ _ body _ _ | collected _ _ body _ _ => exact body
    | ended stack _ _ _ _ _ =>
      exact (step.begun staged (bodies.active r (by rw [stack]; exact List.mem_cons_self))).body
    | bodyless hc _ _ _ _ =>
      obtain ⟨j, _, _, has⟩ := step.sound.has_of_work hc
      exact (step.begun staged (bodies.running j r none has)).body
  · rcases Nat.lt_or_ge r m'.store.records.size with hr' | hr'
    · cases step.rule.makes.newRecord hr hr' with
      | made record _ _ _ | defined _ record _ _ => rw [record]
    · rw [record_of_size_le hr']
      rfl

private theorem Bodies.adopted_step (bodies : m.Bodies) (step : SoundStep host ρ ρ' m m')
    (h : (m'.store.record r).body ≠ none) : m'.Instantiated r := by
  have keeps : (m.store.record r).body ≠ none → m'.Instantiated r := fun h =>
    step.instantiated (bodies.adopted r h)
  rcases Nat.lt_or_ge r m.store.records.size with hr | hr
  · cases step.rule.recordChange hr with
    | same record => exact keeps (by rwa [record.body] at h)
    | failed _ same record =>
      rw [record, Record.body_poison, same.body] at h
      split_ifs at h
      · exact keeps h
      · exact absurd rfl h
    | bodyFailed _ _ _ record =>
      rw [record, Record.body_poison] at h
      split_ifs at h
      · exact keeps h
      · exact absurd rfl h
    | attached _ _ listened record => exact keeps (by simpa [record, listened.body] using h)
    | comes _ _ _ _ record | collected _ _ _ _ _ _ record => exact absurd (by rw [record]) h
    | adopted stack hc next _ _ _ =>
      have control := step.sound.control
      rw [hc, stack] at control
      obtain _ | ⟨fits, below⟩ := control
      cases fits with
      | hook is =>
        obtain ⟨st, stack', _⟩ := below.of_work
        refine ⟨Nat.lt_of_lt_of_le hr step.rule.size_records_le, .inr ⟨next, st, ?_⟩⟩
        rw [(step.rule.recordChange hr).instantiation_eq,
          (step.sound.store.instantiates _ r is).2, stack']
    | imported _ _ _ _ _ record | hooked _ _ _ _ record | deferred _ _ _ record
        | suspended _ _ _ record | ended _ _ _ _ _ record | bodyless _ _ _ _ record =>
      exact keeps (by simpa [record] using h)
  · rcases Nat.lt_or_ge r m'.store.records.size with hr' | hr'
    · cases step.rule.makes.newRecord hr hr' with
      | made record _ _ _ | defined _ record _ _ => exact absurd (by rw [record]) h
    · exact absurd (by rw [record_of_size_le hr']; rfl) h

/-- A body that is held has not been started. -/
private theorem Bodies.held_step (bodies : m.Bodies) (step : SoundStep host ρ ρ' m m')
    (staged : m.Staged ρ) (h : m'.HoldsBody r) : .bodyStarted r ∉ m'.store.milestones := by
  intro started
  rcases bodies.holds_step step staged h with holds | ⟨_, body, _⟩
  · rcases step.rule.happens_of_mem started trivial with started | happens
    · exact bodies.held r holds started
    · cases happens with
      | bodyStarted _ _ next =>
        obtain ⟨_, hc | ⟨_, hc, _⟩⟩ := h <;> exact nomatch next.symm.trans hc
  · rcases step.rule.happens_of_mem started trivial with started | happens
    · exact body (bodies.started r started).body
    · cases happens with
      | bodyStarted hc _ _ =>
        obtain ⟨j, _, _, has⟩ := step.sound.has_of_work hc
        exact body (bodies.running j r _ has).body

private theorem Bodies.heldState_step (bodies : m.Bodies) (step : SoundStep host ρ ρ' m m')
    (staged : m.Staged ρ) (h : m'.HoldsBody r) : (m'.store.record r).state ≠ .executed := by
  rcases bodies.holds_step step staged h with holds | ⟨hr, _, taken⟩
  · have linked : m.Linked r := by
      obtain ⟨code, hc | ⟨j, _, state⟩⟩ := holds
      · obtain ⟨j, _, _, has⟩ := step.sound.has_of_work hc
        exact (bodies.running j r _ has).linked
      · exact (bodies.running j r _ (.waits state)).linked
    have before := bodies.heldState r holds
    cases (step.rule.recordChange linked.1).transition with
    | stays state => rwa [state]
    | fails _ _ state | hooked _ _ _ state | attached _ _ _ state | comes _ _ _ _ _ state
        | collected _ _ _ _ state =>
      rw [state]
      nofun
    | ended _ hc _ _ _ _ | bodyless hc _ _ _ _ =>
      obtain ⟨_, hc' | ⟨_, hc', _⟩⟩ := holds <;> exact nomatch hc.symm.trans hc'
  · rcases taken.state hr with state | ⟨_, state⟩ <;> rw [state] <;> nofun

theorem Bodies.step (bodies : m.Bodies) (step : SoundStep host ρ ρ' m m') (staged : m.Staged ρ) :
    m'.Bodies where
  running _ _ _ h := bodies.begun_step step staged h
  suspended j r code h := by
    rcases step.rule.comes h with has | ⟨hj, state⟩ | ⟨_, continues⟩
    · exact step.begun staged (bodies.suspended j r code has)
    · cases step.newJob hj state with
      | instantiate _ _ _ state' | link _ _ _ state' | graph _ _ _ state' | deferred _ _ _ state' _ _
          | turn _ _ _ _ state' _ | ready _ _ _ _ state' => exact nomatch state.symm.trans state'
    · cases continues with
      | bodyWaits stack _ =>
        exact step.begun staged (bodies.active r (by rw [stack]; exact List.mem_cons_self))
  active r h := by
    rcases step.rule.pushed h with h | pushed
    · exact step.begun staged (bodies.active r h)
    · cases pushed with
      | plain h => exact h.elim
      | startedBody hc _ =>
        obtain ⟨j, _, _, has⟩ := step.sound.has_of_work hc
        exact step.begun staged (bodies.running j r _ has)
      | body hc _ =>
        obtain ⟨j, _, _, has⟩ := step.sound.has_of_work hc
        exact step.begun staged (bodies.suspended j r _ has)
  started r h := by
    rcases step.rule.happens_of_mem h trivial with h | happens
    · exact step.begun staged (bodies.started r h)
    · cases happens with
      | bodyStarted hc _ _ =>
        obtain ⟨j, _, _, has⟩ := step.sound.has_of_work hc
        exact step.begun staged (bodies.running j r _ has)
  taken _ h := bodies.taken_step step staged h
  adopted _ h := bodies.adopted_step step h
  polled _ _ _ h := bodies.polled_step step staged h
  held _ h := bodies.held_step step staged h
  heldState _ h := bodies.heldState_step step staged h
  once r := by
    rcases step.rule.happens (e := .bodyStarted r) trivial with count | ⟨milestones, happens⟩
    · rw [count]
      exact bodies.once r
    · have fresh : .bodyStarted r ∉ m.store.milestones := by
        cases happens with
        | bodyStarted hc _ _ => exact bodies.held r ⟨_, .inl hc⟩
      simp [milestones, List.count_eq_zero.mpr fresh]

theorem SoundPause.begun (pause : SoundPause ρ m m') : m'.Begun r ↔ m.Begun r := by
  constructor
  · rintro ⟨linked, body, state⟩
    rw [pause.change.kept.record] at body state
    exact ⟨pause.linked.mp linked, body, state⟩
  · rintro ⟨linked, body, state⟩
    refine ⟨pause.linked.mpr linked, ?_, ?_⟩ <;> rwa [pause.change.kept.record]

/-- Outside, no job holds a body. -/
theorem SoundPause.not_holdsBody (pause : SoundPause ρ m m') : ¬ m'.HoldsBody r := by
  rintro ⟨code, hc | ⟨j, hc, _⟩⟩ <;>
  · rcases pause.control with ⟨_, h⟩ | ⟨_, h⟩ <;> exact nomatch h.symm.trans hc

theorem Bodies.pause (bodies : m.Bodies) (pause : SoundPause ρ m m') : m'.Bodies := by
  have kept := pause.change.kept
  constructor
  · exact fun j r body h => pause.begun.mpr (bodies.running j r body (pause.has h))
  · exact fun j r code h => pause.begun.mpr (bodies.suspended j r code (pause.has h))
  · intro r h
    rw [pause.stack] at h
    exact nomatch h
  · intro r h
    rw [kept.milestones] at h
    exact pause.begun.mpr (bodies.started r h)
  · rw [kept.record]
    exact bodies.taken
  · intro r h
    rw [kept.record] at h
    exact pause.instantiated.mpr (bodies.adopted r h)
  · intro j r code h
    rw [kept.state_job] at h
    obtain ⟨_, reply, hc⟩ := reply?_isSome.mp pause.rests
    exact nomatch hc.symm.trans (bodies.polled j r code h)
  · exact fun r h => absurd h pause.not_holdsBody
  · exact fun r h => absurd h pause.not_holdsBody
  · rw [kept.milestones]
    exact bodies.once

/-- Bodies that have been started are not started again, in every run. -/
theorem Traced.bodies (h : Traced host ρ (m :: trace)) : m.Bodies := by
  refine h.invariant (P := fun _ m => m.Bodies) (fun base resolver memory => ?_)
    (fun traced step bodies => bodies.step step traced.staged) fun _ pause bodies => bodies.pause pause
  refine ⟨fun _ _ _ h => absurd h not_has_start, fun _ _ _ h => absurd h not_has_start, nofun, nofun,
    fun r _ => by rw [record_start]; rfl, fun r h => ?_, fun j r code h => ?_, ?_, ?_,
    fun _ => Nat.zero_le 1⟩
  · rw [record_start] at h
    exact absurd rfl h
  · exact absurd (.waits h) not_has_start
  · rintro r ⟨code, hc | ⟨j, hc, _⟩⟩ <;> exact nomatch hc
  · rintro r ⟨code, hc | ⟨j, hc, _⟩⟩ <;> exact nomatch hc

end Bodies

end Machine

end ModuleSystem.Loader
