import ModuleSystem.Proofs.Loader.Trace

/-!
# Stages of modules

A module is instantiated, linked and executed, in this order. In every state of a run the state of a
record and the jobs that stand for its instantiation and its linking agree on how far the module has
come, and so do the activities that are about the module (`Machine.Staged`).

## Main definitions

* `Machine.Instantiated`, `Machine.Linked` : a module has been instantiated, or linked.
* `Machine.Staged` : the records and the activities keep to the stages.

## Main results

* `Machine.Traced.staged` : they do so in every run.
-/

namespace ModuleSystem.Loader

variable {C M : Type}

namespace Machine

open Store

/-- A module has been instantiated: the job that does so has succeeded, or does so next. -/
def Instantiated (m : Machine C M) (r : RecordId) : Prop :=
  r < m.store.records.size ∧ m.Ends (m.store.record r).instantiation (.ok ())

/-- A module has been linked: the job that does so has succeeded, or does so next. -/
def Linked (m : Machine C M) (r : RecordId) : Prop :=
  r < m.store.records.size ∧ m.Ends (m.store.record r).linking (.ok ())

/-! ### What stays -/

section Stays

variable {host : Host C M} {ρ ρ' : Roles} {m m' : Machine C M} {r : RecordId} {j : JobId}
  {kind : JobKind} {outcome : Outcome}

theorem Sound.lt_of_is (sound : m.Sound ρ) (h : ρ.Is j kind) : j < m.store.jobs.size := by
  have lt := h.lt
  rwa [sound.store.kinds] at lt

theorem Sound.lt_of_instantiates (sound : m.Sound ρ) (h : ρ.Instantiates j r) :
    j < m.store.jobs.size :=
  h.elim sound.lt_of_is sound.lt_of_is

theorem Sound.lt_of_links (sound : m.Sound ρ) (h : ρ.Links j r) : j < m.store.jobs.size :=
  h.elim sound.lt_of_is sound.lt_of_is

/-- A job that is being advanced is running. -/
theorem Sound.running_of_mem (sound : m.Sound ρ) (mem : .advancing j ∈ m.stack) :
    (m.store.job j).state = .running :=
  (sound.running j).mpr (mem_advanced.mpr mem)

/-- A job that ends has ended after a step. -/
theorem SoundStep.ends (step : SoundStep host ρ ρ' m m') (hj : j < m.store.jobs.size)
    (h : m.Ends j outcome) : (m'.store.job j).state = .finished outcome := by
  rcases h with finished | ⟨hc, st, stack⟩
  · exact step.rule.advance.finished (fun i hi => (step.sound.running i).mpr hi) hj finished
  · have finish : m'.store = m.store.finish j outcome := by
      rw [step.next]
      simp [Machine.step, hc, endJob, stack, pop, mapStore]
    rw [finish, state_job_finish, if_pos ⟨rfl, hj⟩]

theorem SoundStep.instantiated (step : SoundStep host ρ ρ' m m') (h : m.Instantiated r) :
    m'.Instantiated r := by
  have lt := step.sound.lt_of_instantiates (step.sound.store.instantiation r h.1)
  refine ⟨Nat.lt_of_lt_of_le h.1 step.rule.size_records_le, .inl ?_⟩
  rw [(step.rule.recordChange h.1).instantiation_eq]
  exact step.ends lt h.2

theorem SoundStep.linked (step : SoundStep host ρ ρ' m m') (h : m.Linked r) : m'.Linked r := by
  have lt := step.sound.lt_of_links (step.sound.store.linking r h.1)
  refine ⟨Nat.lt_of_lt_of_le h.1 step.rule.size_records_le, .inl ?_⟩
  rw [(step.rule.recordChange h.1).linking_eq]
  exact step.ends lt h.2

/-- A machine at rest ends no job. -/
theorem SoundPause.ends (pause : SoundPause ρ m m') : m'.Ends j outcome ↔ m.Ends j outcome := by
  obtain ⟨_, reply, hc⟩ := reply?_isSome.mp pause.rests
  have idle : ∀ o, m'.control ≠ .ended o := by
    intro o
    rcases pause.change.activities with ⟨_, h⟩ | ⟨_, request, h⟩
    · rw [h, hc]
      simp
    · rw [h]
      simp
  rw [Ends, Ends, pause.change.kept.state_job]
  exact or_congr_right (iff_of_false (fun h => idle _ h.1) (by simp [hc]))

theorem SoundPause.instantiated (pause : SoundPause ρ m m') :
    m'.Instantiated r ↔ m.Instantiated r := by
  rw [Instantiated, Instantiated, pause.change.kept.record, pause.change.kept.size_records,
    pause.ends]

theorem SoundPause.linked (pause : SoundPause ρ m m') : m'.Linked r ↔ m.Linked r := by
  rw [Linked, Linked, pause.change.kept.record, pause.change.kept.size_records, pause.ends]

end Stays

/-! ### What is new -/

/-- What a job is for that succeeds in a step, and how it does so. -/
inductive SucceedsAs (ρ : Roles) (m m' : Machine C M) : JobKind → Prop
  | instantiate {r code} (stack : m.stack = .hook r :: m'.stack) (control : m.control = .host code) :
      SucceedsAs ρ m m' (.instantiate r)
  | link {r dependencies rest s}
      (way : HandsOver m.store m.stack m.control r dependencies rest s m'.stack)
      (state : r < m.store.records.size →
        (m'.store.record r).state = .linked ∨ ∃ error, (m'.store.record r).state = .failed error) :
      SucceedsAs ρ m m' (.link r)
  | execute {r} : SucceedsAs ρ m m' (.execute r)
  | graph {j r seen} (stack : m.stack = .executingGraph :: m'.stack)
      (control : m.control = .visited (.ok none) seen) (awaits : Awaits ρ (.visited j r) m.stack) :
      SucceedsAs ρ m m' (.evaluate r)
  | evaluation {j r} (is : ρ.Is j (.execute r)) (ends : m.Ends j (.ok ())) :
      SucceedsAs ρ m m' (.evaluate r)

section New

variable {host : Host C M} {ρ ρ' : Roles} {m m' : Machine C M} {r : RecordId} {j : JobId}

/-- A job that stands for the linking of a module does nothing else. -/
theorem links_eq {kind : JobKind} (h : ρ.Links j r)
    (is : ρ.Is j kind) : kind = .link r ∨ kind = .ready r :=
  h.imp is.eq is.eq

/-- A job that has ended after a step had ended before it, or does so next. -/
theorem SoundStep.ends_cases (step : SoundStep host ρ ρ' m m') {outcome : Outcome}
    (hj : j < m.store.jobs.size) (h : m'.Ends j outcome) :
    m.Ends j outcome ∨ m'.control = .ended outcome ∧ ∃ st, m'.stack = .advancing j :: st := by
  rcases h with finished | next
  · refine .inl ?_
    cases step.rule.advance with
    | same _ state => exact .inl ((state _ hj).symm.trans finished)
    | takes _ _ _ _ state | putsAside _ _ _ state | abandons _ _ _ state =>
      rw [state] at finished
      split_ifs at finished
      exact .inl finished
    | @ends i outcome control _ stack state =>
      rw [state] at finished
      split_ifs at finished with hi
      · obtain rfl := JobState.finished.inj finished
        rw [hi.1]
        exact .inr ⟨control, _, stack⟩
      · exact .inl finished
  · exact .inr next

/-- A job that has just been made has not ended, unless it stands for a module that was defined. -/
theorem SoundStep.ready_of_ends (step : SoundStep host ρ ρ' m m') {kind : JobKind}
    {outcome : Outcome} (is : ρ'.Is j kind) (new : m.store.jobs.size ≤ j) (ends : m'.Ends j outcome) :
    outcome = .ok () ∧ ∃ r, kind = .ready r := by
  have tells := step.follow.told j kind new is
  rcases ends with finished | ⟨_, st, stack⟩
  · cases tells with
    | ready _ _ _ _ state => exact ⟨JobState.finished.inj (finished.symm.trans state), _, rfl⟩
    | instantiate _ _ state | link _ _ state | evaluate _ _ state | deferred state | turn state =>
      exact nomatch state.symm.trans finished
  · refine absurd ((step.sound'.running j).mpr ?_) tells.not_running
    rw [stack, advanced]
    exact List.mem_cons_self

theorem SoundStep.succeedsAs (step : SoundStep host ρ ρ' m m') {st : List (Frame C)}
    (next : m'.control = .ended (.ok ())) (stack : m'.stack = .advancing j :: st) :
    ∃ kind, ρ.Is j kind ∧ SucceedsAs ρ m m' kind := by
  have own : ∀ {i}, Awaits ρ (.work i) m'.stack → i = j := by
    intro i awaits
    obtain ⟨_, stack', _⟩ := awaits.of_work
    rw [stack] at stack'
    cases stack'
    rfl
  have control := step.sound.control
  cases step.rule.succeeds next with
  | hook stack hc =>
    rw [stack, hc] at control
    obtain _ | ⟨fits, below⟩ := control
    cases fits with
    | hook is => exact ⟨_, own below ▸ is, .instantiate stack hc⟩
  | body stack hc =>
    rw [stack, hc] at control
    obtain _ | ⟨fits, below⟩ := control
    cases fits with
    | body is => exact ⟨_, own below ▸ is, .execute⟩
  | linked way state =>
    obtain ⟨_, awaits, is, _⟩ := way.awaits control
    exact ⟨_, own awaits ▸ is, .link way state⟩
  | graph stack hc _ =>
    rw [hc] at control
    obtain ⟨i, r, awaits, _⟩ := control
    have here := awaits
    rw [stack] at here
    obtain _ | ⟨fits, below⟩ := here
    cases fits with
    | executingGraph is => exact ⟨_, own below ▸ is, .graph stack hc awaits⟩
  | evaluation stack hc _ =>
    rw [stack, hc] at control
    obtain ⟨_, _ | ⟨fits, below⟩, ended⟩ := control
    cases fits with
    | evaluating is evaluation =>
      exact ⟨_, own below ▸ is, .evaluation evaluation (.inl (ended _ rfl))⟩
  | bodyless hc stack =>
    rw [hc, ← stack] at control
    obtain ⟨_, awaits, fits⟩ := control
    cases fits with
    | runBody is => exact ⟨_, own awaits ▸ is, .execute⟩

/-- A module that is linked after a step was linked before it, or has been by the step, or has been
defined. -/
theorem SoundStep.linked_cases (step : SoundStep host ρ ρ' m m') (h : m'.Linked r) :
    m.Linked r ∨
      r < m.store.records.size ∧ (∃ dependencies rest s,
        HandsOver m.store m.stack m.control r dependencies rest s m'.stack) ∧
        ((m'.store.record r).state = .linked ∨
          ∃ error, (m'.store.record r).state = .failed error) ∨
      m.store.records.size ≤ r ∧ m'.control = .reply (.defined r) ∧
        (m'.store.record r).state = .executed ∧
        (m'.store.record r).instantiation = (m'.store.record r).linking := by
  obtain ⟨hr', ends⟩ := h
  have store := step.sound.store
  rcases Nat.lt_or_ge r m.store.records.size with hr | hr
  · rw [(step.rule.recordChange hr).linking_eq] at ends
    have links := store.linking r hr
    have lt := step.sound.lt_of_links links
    rcases step.ends_cases lt ends with ends | ⟨hc, st, stack⟩
    · exact .inl ⟨hr, ends⟩
    · obtain ⟨kind, is, succeeds⟩ := step.succeedsAs hc stack
      rcases links_eq links is with rfl | rfl
      · cases succeeds with
        | link way state => exact .inr (.inl ⟨hr, ⟨_, _, _, way⟩, state hr⟩)
      · cases succeeds
  · cases step.rule.makes.newRecord hr hr' with
    | made record _ links _ =>
      rw [record] at ends
      rcases ends with finished | ⟨_, st, stack⟩
      · exact nomatch links.waits.symm.trans finished
      · have running := step.sound'.running_of_mem (stack ▸ List.mem_cons_self)
        exact nomatch links.waits.symm.trans running
    | defined next record _ _ =>
      exact .inr (.inr ⟨hr, next, by rw [record], by rw [record]⟩)

/-- A job that executes a module has done so before a step, or it is new and the turn of the module
has come, or does so when other jobs have ended. -/
theorem SoundStep.executes_cases (step : SoundStep host ρ ρ' m m') (h : ρ'.Is j (.execute r)) :
    ρ.Is j (.execute r) ∨ j = m.store.jobs.size ∧
      ∃ jobs seen st, Turn m.store m.stack m.control r [] jobs seen st ∧
        (Taken m m' r ∨ (r < m.store.records.size →
          (m'.store.record r).evaluation = some j)) := by
  have store := step.sound.store
  rcases Nat.lt_or_ge j m.store.jobs.size with hj | hj
  · exact .inl (step.follow.is_of_lt store hj h)
  · have hj' := step.sound'.lt_of_is h
    have new := step.rule.makes.newJob (fun _ _ h => store.lt_of_lookup h) hj hj'
    refine .inr ?_
    cases step.follow.told j _ hj h with
    | deferred state =>
      cases new with
      | deferred new way _ state' _ record =>
        cases state.symm.trans state'
        exact ⟨new, _, _, _, way, .inr fun hr => by rw [record hr]⟩
      | instantiate _ _ _ state' | link _ _ _ state' | graph _ _ _ state' | turn _ _ _ _ state' _
          | ready _ _ _ _ state' => exact nomatch state.symm.trans state'
    | turn state =>
      cases new with
      | turn new way _ _ state' taken =>
        cases state.symm.trans state'
        exact ⟨new, _, _, _, way, .inl taken⟩
      | instantiate _ _ _ state' | link _ _ _ state' | graph _ _ _ state' | deferred _ _ _ state' _ _
          | ready _ _ _ _ state' => exact nomatch state.symm.trans state'

end New

/-! ### The stages -/

end Machine

/-- Whether the state is one that a module can be in only after it has been linked. -/
def ModuleState.IsLinked : ModuleState → Prop
  | linked | executing | executed => True
  | _ => False

namespace Machine

open Store

/-- The records and the activities keep to the stages of the modules. -/
structure Staged (ρ : Roles) (m : Machine C M) : Prop where
  instantiated : ∀ r, m.Linked r → m.Instantiated r
  resolving : ∀ j r dependencies g, m.Has j (.awaitDependencies r dependencies g) →
    m.Instantiated r
  joining : ∀ r dependencies g i, .joining r dependencies g i ∈ m.stack → m.Instantiated r
  handingOver : ∀ r dependencies rest, .handingOver r dependencies rest ∈ m.stack →
    m.Instantiated r
  linked : ∀ r, (m.store.record r).state.IsLinked → m.Linked r
  entered : ∀ r, m.Linked r → (m.store.record r).state.IsLinked ∨
    ∃ error, (m.store.record r).state = .failed error
  visiting : ∀ r rest jobs, .visiting r rest jobs ∈ m.stack → m.Linked r
  executes : ∀ j r, ρ.Is j (.execute r) → m.Linked r
  dependencies : ∀ r, (m.store.record r).dependencies ≠ [] → m.Linked r

section Staged

variable {host : Host C M} {ρ ρ' : Roles} {m m' : Machine C M} {trace : List (Machine C M)}
  {r : RecordId} {st : List (Frame C)} {s : Store C} {dependencies rest : List Dependency}
  {jobs : List JobId} {g : GroupId} {seen : List RecordId}

theorem Staged.of_joins (staged : m.Staged ρ) (sound : m.Sound ρ)
    (way : Joins m.store m.stack m.control r dependencies g s st) : m.Instantiated r := by
  have control := sound.control
  generalize hst : m.stack = stack at way control
  generalize hc : m.control = c at way control
  cases way with
  | starts l =>
    obtain ⟨j, awaits, _⟩ := control
    obtain ⟨_, rfl, _⟩ := awaits.of_work
    exact staged.resolving j r dependencies g (.next hst hc)
  | settles l => exact staged.joining r dependencies g _ (by rw [hst]; exact List.mem_cons_self)

theorem Staged.of_handsOver (staged : m.Staged ρ) (sound : m.Sound ρ)
    (way : HandsOver m.store m.stack m.control r dependencies rest s st) : m.Instantiated r := by
  generalize hst : m.stack = stack at way
  generalize hc : m.control = c at way
  cases way with
  | resumes => exact staged.handingOver r dependencies rest (by rw [hst]; exact List.mem_cons_self)
  | starts way =>
    subst hst hc
    exact staged.of_joins sound way

/-- A module whose turn is to come has been linked. -/
theorem Staged.of_turn {rest : List RecordId} (staged : m.Staged ρ)
    (way : Turn m.store m.stack m.control r rest jobs seen st) : m.Linked r := by
  generalize hst : m.stack = stack at way
  generalize hc : m.control = c at way
  cases way with
  | first _ linked _ => exact staged.linked r (by rw [linked]; trivial)
  | next => exact staged.visiting r rest _ (by rw [hst]; exact List.mem_cons_self)

private theorem Staged.linked_step (staged : m.Staged ρ) (step : SoundStep host ρ ρ' m m')
    (h : (m'.store.record r).state.IsLinked) : m'.Linked r := by
  have control := step.sound.control
  have executes : ∀ {j}, ρ.Is j (.execute r) → m'.Linked r := fun is =>
    step.linked (staged.executes _ r is)
  rcases Nat.lt_or_ge r m.store.records.size with hr | hr
  · cases (step.rule.recordChange hr).transition with
    | stays state => exact step.linked (staged.linked r (by rwa [← state]))
    | fails _ _ state | hooked _ _ _ state =>
      rw [state] at h
      exact h.elim
    | attached way next _ _ =>
      obtain ⟨j, awaits, is, _⟩ := way.awaits control
      obtain ⟨st, stack, _⟩ := awaits.of_work
      refine ⟨Nat.lt_of_lt_of_le hr step.rule.size_records_le, .inr ⟨next, st, ?_⟩⟩
      rw [(step.rule.recordChange hr).linking_eq, (step.sound.store.links j r is).2, stack]
    | comes way _ _ _ _ _ => exact step.linked (staged.of_turn way)
    | collected way _ _ _ _ =>
      obtain ⟨j, _, is, _⟩ := way.awaits control
      exact executes is
    | ended stack hc _ _ _ _ =>
      rw [stack, hc] at control
      obtain _ | ⟨fits, _⟩ := control
      cases fits with
      | body is => exact executes is
    | bodyless hc _ _ _ _ =>
      rw [hc] at control
      obtain ⟨j, _, fits⟩ := control
      cases fits with
      | runBody is => exact executes is
  · rcases Nat.lt_or_ge r m'.store.records.size with hr' | hr'
    · cases step.rule.makes.newRecord hr hr' with
      | made record _ _ _ =>
        rw [record] at h
        exact h.elim
      | defined _ record _ state =>
        refine ⟨hr', .inl ?_⟩
        rw [record]
        exact state
    · rw [record_of_size_le hr'] at h
      exact h.elim

/-- The hook of a module that has been instantiated is not called again. -/
theorem Sound.not_instantiated (sound : m.Sound ρ) (hc : m.control = .work (.instantiate r)) :
    ¬ m.Instantiated r := by
  rintro ⟨_, ends⟩
  have control := sound.control
  rw [hc] at control
  obtain ⟨j, awaits, fits⟩ := control
  obtain ⟨st, stack, _⟩ := awaits.of_work
  cases fits with
  | instantiate is =>
    rw [(sound.store.instantiates j r is).2] at ends
    have running := sound.running_of_mem (stack ▸ List.mem_cons_self)
    rcases ends with finished | ⟨hc', _⟩
    · exact nomatch running.symm.trans finished
    · exact nomatch hc.symm.trans hc'

private theorem Staged.entered_step (staged : m.Staged ρ) (step : SoundStep host ρ ρ' m m')
    (h : m'.Linked r) : (m'.store.record r).state.IsLinked ∨
      ∃ error, (m'.store.record r).state = .failed error := by
  rcases step.linked_cases h with linked | ⟨_, _, state | failed⟩ | ⟨_, _, state, _⟩
  · cases (step.rule.recordChange linked.1).transition with
    | stays state => simpa only [state] using staged.entered r linked
    | fails _ _ state => exact .inr ⟨_, state⟩
    | hooked hc _ _ _ => exact absurd (staged.instantiated r linked) (step.sound.not_instantiated hc)
    | attached _ _ _ state | comes _ _ _ _ _ state | collected _ _ _ _ state | ended _ _ _ _ _ state
        | bodyless _ _ _ _ state => exact .inl (by rw [state]; trivial)
  · exact .inl (by rw [state]; trivial)
  · exact .inr failed
  · exact .inl (by rw [state]; trivial)

private theorem Staged.dependencies_step (staged : m.Staged ρ)
    (step : SoundStep host ρ ρ' m m') (h : (m'.store.record r).dependencies ≠ []) :
    m'.Linked r := by
  have keeps : (m.store.record r).dependencies ≠ [] → m'.Linked r := fun h =>
    step.linked (staged.dependencies r h)
  rcases Nat.lt_or_ge r m.store.records.size with hr | hr
  · cases step.rule.recordChange hr with
    | same record => exact keeps (by rwa [record.dependencies] at h)
    | failed _ same record =>
      exact keeps (by simpa only [record, Record.poison_same, same.dependencies] using h)
    | attached way next _ _ =>
      obtain ⟨j, awaits, is, _⟩ := way.awaits step.sound.control
      obtain ⟨st, stack, _⟩ := awaits.of_work
      refine ⟨Nat.lt_of_lt_of_le hr step.rule.size_records_le, .inr ⟨next, st, ?_⟩⟩
      rw [(step.rule.recordChange hr).linking_eq, (step.sound.store.links j r is).2, stack]
    | imported _ _ _ _ _ record | hooked _ _ _ _ record | adopted _ _ _ _ _ record
        | deferred _ _ _ record | comes _ _ _ _ record | collected _ _ _ _ _ _ record
        | suspended _ _ _ record | ended _ _ _ _ _ record | bodyless _ _ _ _ record
        | bodyFailed _ _ _ record => exact keeps (by simpa [record] using h)
  · rcases Nat.lt_or_ge r m'.store.records.size with hr' | hr'
    · cases step.rule.makes.newRecord hr hr' with
      | made record _ _ _ | defined _ record _ _ => simp [record] at h
    · simp [record_of_size_le hr', Record.blank] at h

theorem Staged.step (staged : m.Staged ρ) (step : SoundStep host ρ ρ' m m') : m'.Staged ρ' where
  instantiated r h := by
    rcases step.linked_cases h with linked | ⟨_, ⟨_, _, _, way⟩, _⟩ | ⟨_, _, _, same⟩
    · exact step.instantiated (staged.instantiated r linked)
    · exact step.instantiated (staged.of_handsOver step.sound way)
    · exact ⟨h.1, by rw [same]; exact h.2⟩
  resolving j r dependencies g h := by
    rcases step.rule.comes h with has | ⟨hj, state⟩ | ⟨_, continues⟩
    · exact step.instantiated (staged.resolving j r dependencies g has)
    · have lt : j < m'.store.jobs.size := Nat.lt_of_not_le fun hle =>
        nomatch state.symm.trans (state_job_of_size_le hle)
      obtain ⟨_, _, tells⟩ := step.follow.tells hj lt
      exact nomatch tells.kind?_eq state
    · cases continues with
      | resolved stack hc _ =>
        have control := step.sound.control
        rw [stack, hc] at control
        obtain ⟨i, _ | ⟨fits, _⟩, finished⟩ := control
        cases fits with
        | linking _ instantiation =>
          obtain ⟨hr, same⟩ := step.sound.store.instantiation_eq instantiation
          refine step.instantiated ⟨hr, .inl ?_⟩
          rw [same]
          exact finished _ rfl
      | joins way _ => exact step.instantiated (staged.of_joins step.sound way)
  joining r dependencies g i h := by
    rcases step.rule.pushed h with h | pushed
    · exact step.instantiated (staged.joining r dependencies g i h)
    · cases pushed with
      | plain h => exact h.elim
      | joining way _ => exact step.instantiated (staged.of_joins step.sound way)
  handingOver r dependencies rest h := by
    rcases step.rule.pushed h with h | pushed
    · exact step.instantiated (staged.handingOver r dependencies rest h)
    · cases pushed with
      | plain h => exact h.elim
      | handingOver hands =>
        obtain ⟨way, _, _, _⟩ := hands
        exact step.instantiated (staged.of_handsOver step.sound way)
  linked r h := staged.linked_step step h
  entered r h := staged.entered_step step h
  visiting r rest jobs h := by
    rcases step.rule.pushed h with h | pushed
    · exact step.linked (staged.visiting r rest jobs h)
    · cases pushed with
      | plain h => exact h.elim
      | visiting way _ => exact step.linked (staged.of_turn way)
  executes j r h := by
    rcases step.executes_cases h with is | ⟨_, _, _, _, way, _⟩
    · exact step.linked (staged.executes j r is)
    · exact step.linked (staged.of_turn way)
  dependencies r h := staged.dependencies_step step h

theorem Staged.pause (staged : m.Staged ρ) (pause : SoundPause ρ m m') : m'.Staged ρ := by
  have empty : ∀ frame, frame ∉ m'.stack := by simp [pause.stack]
  constructor
  · intro r h
    exact pause.instantiated.mpr (staged.instantiated r (pause.linked.mp h))
  · intro j r dependencies g h
    exact pause.instantiated.mpr (staged.resolving j r dependencies g (pause.has h))
  · exact fun _ _ _ _ h => absurd h (empty _)
  · exact fun _ _ _ h => absurd h (empty _)
  · intro r h
    rw [pause.change.kept.record] at h
    exact pause.linked.mpr (staged.linked r h)
  · intro r h
    rw [pause.change.kept.record]
    exact staged.entered r (pause.linked.mp h)
  · exact fun _ _ _ h => absurd h (empty _)
  · exact fun j r h => pause.linked.mpr (staged.executes j r h)
  · intro r h
    rw [pause.change.kept.record] at h
    exact pause.linked.mpr (staged.dependencies r h)

/-- The records and the activities keep to the stages of the modules in every run. -/
theorem Traced.staged (h : Traced host ρ (m :: trace)) : m.Staged ρ := by
  refine h.invariant (fun base resolver memory => ?_) (fun _ step staged => staged.step step)
    fun _ pause staged => staged.pause pause
  refine ⟨fun r h => absurd h.1 (Nat.not_lt_zero r), fun _ _ _ _ h => absurd h not_has_start, nofun,
    nofun, fun r h => ?_, fun r h => absurd h.1 (Nat.not_lt_zero r), nofun, nofun, fun r h => ?_⟩
  · rw [record_start] at h
    exact h.elim
  · rw [record_start] at h
    exact absurd rfl h

end Staged

end Machine

end ModuleSystem.Loader
