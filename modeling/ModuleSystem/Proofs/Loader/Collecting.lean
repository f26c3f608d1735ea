import ModuleSystem.Proofs.Loader.Nesting

/-!
# Jobs that wait for others

A module whose dependencies have to wait is executed by a job that waits for the jobs of these
(`Machine.Collecting`). The jobs are a group, whose members end as the jobs do. So the turn of the
module comes only after all of them have succeeded.

## Main results

* `Machine.Traced.tallied` : in every run, members without an error stand for jobs that have
  succeeded.
* `Machine.Tallied.succeeded` : when the turn of such a module comes, all its jobs have succeeded.
-/

namespace ModuleSystem.Loader

variable {C M : Type}

/-- A walk that links a graph is that of a job that does so. -/
theorem Awaits.evaluates_of_linked {ρ : Roles} {j : JobId} {path : List Nat} {r : RecordId}
    {st : List (Frame C)} (h : Awaits ρ (.linked j path r) st) : ∃ r, ρ.Is j (.evaluate r) := by
  generalize hslot : Slot.linked j path r = slot at h
  induction h generalizing path r with
  | nil => exact nomatch hslot
  | cons fits _ ih =>
    subst hslot
    cases fits with
    | linkingGraph is => exact ⟨_, is⟩
    | linkingChildren _ _ _ => exact ih rfl

namespace Machine

open Store

/-- A job waits for other jobs, which are a group, before it executes a module. -/
inductive Collecting (m : Machine C M) (j : JobId) (r : RecordId) (jobs : List JobId)
    (g : GroupId) : Prop
  | left (h : m.Has j (.executeAfter r jobs g))
  | about {i st} (h : .executingAfter r jobs g i :: .advancing j :: st <:+ m.stack)

section Collecting

variable {host : Host C M} {ρ ρ' : Roles} {m m' : Machine C M} {j : JobId} {r : RecordId}
  {jobs : List JobId} {g : GroupId} {s : Store C} {st : List (Frame C)} {w : Work C}

theorem Sound.fits_of_collecting (sound : m.Sound ρ) (h : m.Collecting j r jobs g) :
    ρ.Is j (.execute r) ∧ ρ.Owns j [] g ∧ ∀ i ∈ jobs, ρ.Executes i := by
  cases h with
  | left has =>
    cases sound.fits_of_has has with
    | executeAfter is owner members => exact ⟨is, owner, members⟩
  | about below =>
    obtain ⟨slot, awaits⟩ := sound.control.awaits
    obtain ⟨_, _, fits, awaits⟩ := awaits.of_suffix below
    cases fits with
    | executingAfter is owner members _ =>
      obtain ⟨_, stack, _⟩ := awaits.of_work
      cases stack
      exact ⟨is, owner, members⟩

/-- The jobs that are looked at are those that the innermost job waits for. -/
theorem Sound.collecting (sound : m.Sound ρ)
    (way : Collects m.store m.stack m.control r jobs g s st) :
    ∃ j st', st = .advancing j :: st' ∧ m.Collecting j r jobs g := by
  have control := sound.control
  generalize hst : m.stack = stack at way control
  generalize hc : m.control = c at way control
  cases way with
  | starts l =>
    obtain ⟨j, awaits, _⟩ := control
    obtain ⟨st', rfl, _⟩ := awaits.of_work
    exact ⟨j, st', rfl, .left (.next hst hc)⟩
  | settles l =>
    obtain ⟨_, _ | ⟨fits, below⟩, _⟩ := control
    cases fits with
    | executingAfter _ _ _ _ =>
      obtain ⟨st', rfl, _⟩ := below.of_work
      exact ⟨_, st', rfl, .about (⟨[], hst.symm⟩)⟩

/-- A job that waits for others has no other work left. -/
theorem Collecting.eq_of_has (h : m.Collecting j r jobs g) (sound : m.Sound ρ) (has : m.Has j w) :
    w = .executeAfter r jobs g := by
  cases h with
  | left h => exact sound.has_unique has h
  | about below => exact absurd has (sound.not_has below)

/-- A job that waits for others is about no other activity. -/
theorem Collecting.eq_of_above (h : m.Collecting j r jobs g) (sound : m.Sound ρ)
    {frame : Frame C} (below : frame :: .advancing j :: st <:+ m.stack) :
    ∃ i, frame = .executingAfter r jobs g i := by
  cases h with
  | left h => exact absurd h (sound.not_has below)
  | about h => exact ⟨_, sound.above_unique below h⟩

/-- A job that waits for others did so before a step, or it has been made in the step. -/
theorem SoundStep.collecting_cases (step : SoundStep host ρ ρ' m m')
    (h : m'.Collecting j r jobs g) : m.Collecting j r jobs g ∨
      NewJob m m' j ∧ (m'.store.job j).state = .waiting (.executeAfter r jobs g) := by
  cases h with
  | left has =>
    rcases step.rule.comes has with has | ⟨hj, state⟩ | ⟨⟨st, stack⟩, continues⟩
    · exact .inl (.left has)
    · exact .inr ⟨step.newJob hj state, state⟩
    · cases continues with
      | collects way _ =>
        obtain ⟨_, _, stack', collecting⟩ := step.sound.collecting way
        cases stack.symm.trans stack'
        exact .inl collecting
  | about below =>
    rcases step.rule.started below with below | ⟨pushed, stack | may⟩
    · exact .inl (.about below)
    · cases pushed with
      | plain h => exact h.elim
      | executingAfter way stack' =>
        obtain ⟨_, _, rfl, collecting⟩ := step.sound.collecting way
        cases stack.symm.trans stack'
        exact .inl collecting
    · exact may.elim

end Collecting

/-! ### Jobs that end -/

/-- How a job ends that executes a module. -/
inductive Stops (m m' : Machine C M) (r : RecordId) (outcome : Outcome) : Prop
  | body {code} (stack : m.stack = .body r :: m'.stack) (control : m.control = .host code)
      (state : m.store.isAlive r = true → r < m.store.records.size →
        (m'.store.record r).state ≠ .executing)
      (milestones : outcome = .ok () →
        m'.store.milestones = .bodyEnded r true :: m.store.milestones)
  | bodyless (control : m.control = .work (.runBody r none))
      (state : m.store.isAlive r = true → r < m.store.records.size →
        (m'.store.record r).state ≠ .executing)
      (executed : outcome = .ok () → r < m.store.records.size →
        (m.store.record r).state.error? = none → (m'.store.record r).state = .executed)
  | collects {jobs g s} (way : Collects m.store m.stack m.control r jobs g s m'.stack)
      (failed : outcome ≠ .ok ())

section Stops

variable {host : Host C M} {ρ : Roles} {m m' : Machine C M} {j : JobId} {r : RecordId}
  {outcome : Outcome} {st : List (Frame C)}

/-- A module that fails is not executing any more. -/
private theorem state_poison_ne {x : Record C} {error : LoaderError} :
    (x.poison error).state ≠ .executing := by
  rcases Record.state_poison_cases with h | ⟨_, h⟩ <;> rw [h] <;> nofun

private theorem state_enter_executed_ne {x : Record C} :
    (x.enter .executed).state ≠ .executing := by
  rcases Record.state_enter_cases with h | ⟨_, _, h⟩ <;> rw [h] <;> nofun

/-- A job that executes a module ends with its body, or without one, or by the failure of a job that
it waits for. -/
theorem Rule.stops (rule : Rule host m m') (sound : m.Sound ρ) (is : ρ.Is j (.execute r))
    (next : m'.control = .ended outcome) (stack : m'.stack = .advancing j :: st) :
    Stops m m' r outcome := by
  have control := sound.control
  have kind : ∀ {i kind}, Awaits ρ (.work i) m'.stack → ρ.Is i kind → kind = .execute r := by
    intro i kind awaits is'
    obtain ⟨_, stack', _⟩ := awaits.of_work
    cases stack.symm.trans stack'
    exact is'.eq is
  have other : ∀ {i kind}, Awaits ρ (.work i) m'.stack → ρ.Is i kind → (∀ r, kind ≠ .execute r) →
      Stops m m' r outcome := fun awaits is' ne => absurd (kind awaits is') (ne r)
  cases rule
  case move move =>
    cases move
    case hookOrphaned | hookFailed =>
      obtain ⟨i, awaits, fits⟩ := control
      cases fits with
      | instantiate is' => exact other awaits is' nofun
    case linkFails | linkOrphaned | linkFailed =>
      obtain ⟨i, _ | ⟨fits, below⟩, _⟩ := control
      cases fits with
      | linking is' _ => exact other below is' nofun
    case graphFails | graphOrphaned =>
      obtain ⟨i, path, _, _ | ⟨fits, below⟩, _⟩ := control
      cases fits with
      | linkingGraph is' => exact other below is' nofun
    case graphAborted | graphExecuted =>
      obtain ⟨i, _, _ | ⟨fits, below⟩, _⟩ := control
      cases fits with
      | executingGraph is' => exact other below is' nofun
    case evaluationEnds =>
      obtain ⟨i, _ | ⟨fits, below⟩, _⟩ := control
      cases fits with
      | evaluating is' _ => exact other below is' nofun
    case bodyOrphaned dead =>
      obtain ⟨i, awaits, fits⟩ := control
      cases fits with
      | runBody is' =>
        obtain rfl := JobKind.execute.inj (kind awaits is')
        refine .bodyless rfl (fun alive => nomatch dead.symm.trans alive) ?_
        rintro rfl
        exact nomatch next
    all_goals exact nomatch next
  case hookOrphaned | hookFails | hookTooLate | hookEnds =>
    obtain _ | ⟨fits, below⟩ := control
    cases fits with
    | hook is' => exact other below is' nofun
  case bodyOrphaned dead =>
    obtain _ | ⟨fits, below⟩ := control
    cases fits with
    | body is' =>
      obtain rfl := JobKind.execute.inj (kind below is')
      refine .body rfl rfl (fun alive => nomatch dead.symm.trans alive) ?_
      rintro rfl
      exact nomatch next
  case bodyEnds alive =>
    obtain _ | ⟨fits, below⟩ := control
    cases fits with
    | body is' =>
      obtain rfl := JobKind.execute.inj (kind below is')
      refine .body rfl rfl (fun _ hr => ?_) fun _ => by simp [Event.isMilestone]
      rw [record_enter_self (by simpa using hr)]
      exact state_enter_executed_ne
  case bodyFails after _ =>
    subst after
    obtain _ | ⟨fits, below⟩ := control
    cases fits with
    | body is' =>
      obtain rfl := JobKind.execute.inj (kind below is')
      refine .body rfl rfl (fun _ hr => ?_) ?_
      · rw [record_fail_self (by simpa using hr)]
        exact state_poison_ne
      · rintro rfl
        cases next
  case publishes way => rcases way.control with h | h <;> cases h.symm.trans next
  case handsOver after => rcases after.control with h | h <;> cases h.symm.trans next
  case unresolved =>
    obtain ⟨i, _ | ⟨fits, below⟩, _⟩ := control
    cases fits with
    | linking is' _ => exact other below is' fun _ h => by cases h
  case joinOrphaned way _ _ _ | joinFails way _ _ _ _ =>
    obtain ⟨i, awaits, is', _⟩ := way.awaits control
    exact other awaits is' fun _ h => by cases h
  case handedOver way =>
    obtain ⟨i, awaits, is', _⟩ := way.awaits control
    exact other awaits is' fun _ h => by cases h
  case bodyless alive =>
    obtain ⟨i, awaits, fits⟩ := control
    cases fits with
    | runBody is' =>
      obtain rfl := JobKind.execute.inj (kind awaits is')
      refine .bodyless rfl (fun _ hr => ?_) fun _ hr sound => ?_
      · rw [record_enter_self (by simpa using hr)]
        exact state_enter_executed_ne
      · rw [record_enter_self (by simpa using hr), record_setEvaluation_self hr,
          Record.state_enter, if_pos sound]
  case collectOrphaned way _ | collectFails way _ _ | collectTooLate way _ _ =>
    obtain ⟨i, awaits, is', _⟩ := way.awaits control
    obtain rfl := JobKind.execute.inj (kind awaits is')
    refine .collects way ?_
    rintro rfl
    cases next
  all_goals cases next

end Stops

/-! ### The members of the group -/

/-- Members of the groups of jobs that have ended without an error stand for jobs that have
succeeded. -/
def Tallied (m : Machine C M) : Prop :=
  ∀ j r jobs g, m.Collecting j r jobs g → (m.store.group g).size = jobs.length ∧
    ∀ (k : Nat) i, jobs[k]? = some i → k ∉ (m.store.group g).left →
      (m.store.group g).errors[k]? = some none → (m.store.job i).state = .finished (.ok ())

section Tallied

variable {host : Host C M} {ρ ρ' : Roles} {m m' : Machine C M} {trace : List (Machine C M)}
  {j : JobId} {r : RecordId} {jobs : List JobId} {g : GroupId} {s : Store C}
  {st : List (Frame C)}

/-- A member of such a group ends as its job has ended. -/
private theorem Collecting.finished_of_memberEnds (h : m.Collecting j r jobs g) (sound : m.Sound ρ)
    {k : Nat} {outcome : Outcome} (cause : MemberEnds g k m.stack m.control outcome) {i : JobId}
    (hi : jobs[k]? = some i) : (m.store.job i).state = .finished outcome := by
  obtain ⟨is, owner, _⟩ := sound.fits_of_collecting h
  have same : ∀ {j' path}, ρ.Owns j' path g → j' = j := fun owner' =>
    (Prod.mk.inj (Option.some.inj (owner'.symm.trans owner))).1
  have control := sound.control
  generalize hst : m.stack = stack at cause control
  generalize m.control = c at cause control
  cases cause with
  | joined =>
    obtain ⟨_, _ | ⟨fits, _⟩, _⟩ := control
    cases fits with
    | joining is' owner' _ _ _ =>
      obtain rfl := same owner'
      exact nomatch is.eq is'
  | linked | failed =>
    obtain ⟨_, _, _, _ | ⟨fits, below⟩, _⟩ := control
    cases fits with
    | linkingChildren owner' _ _ =>
      obtain rfl := same owner'
      obtain ⟨_, is'⟩ := below.evaluates_of_linked
      exact nomatch is.eq is'
  | collected =>
    obtain ⟨i', _ | ⟨fits, below⟩, finished⟩ := control
    cases fits with
    | executingAfter _ owner' _ member =>
      obtain rfl := same owner'
      obtain ⟨st, rfl, _⟩ := below.of_work
      obtain ⟨_, same⟩ := h.eq_of_above sound ⟨[], hst.symm⟩
      cases same
      cases hi.symm.trans member
      exact finished outcome rfl

/-- The tally is right for the members that are left after one of them may have ended. -/
private theorem Tallied.settling (tallied : m.Tallied) (sound : m.Sound ρ)
    (h : m.Collecting j r jobs g) (settling : Settling m.store m.stack m.control s g) :
    (s.group g).size = jobs.length ∧ ∀ (k : Nat) i, jobs[k]? = some i → k ∉ (s.group g).left →
      (s.group g).errors[k]? = some none → (m.store.job i).state = .finished (.ok ()) := by
  obtain ⟨size, ended⟩ := tallied j r jobs g h
  cases settling with
  | same same =>
    rw [same.size, same.left, same.errors]
    exact ⟨size, ended⟩
  | @ended k outcome cause size' left errors _ =>
    rw [size', left, errors]
    refine ⟨size, fun k' i hi hk error => ?_⟩
    by_cases heq : k' = k
    · subst heq
      have finished := h.finished_of_memberEnds sound cause hi
      rw [List.getElem?_set, if_pos rfl] at error
      split_ifs at error
      cases outcome with
      | ok => exact finished
      | error _ => exact nomatch error
    · refine ended k' i hi (fun hk' => hk ((List.mem_erase_of_ne heq).mpr hk')) ?_
      rwa [List.getElem?_set_ne (Ne.symm heq)] at error

/-- When all jobs that a module waits for have ended without an error, they have succeeded. -/
theorem Tallied.succeeded (tallied : m.Tallied) (sound : m.Sound ρ)
    (orderly : IsOrderly (m.store.group g))
    (way : Collects m.store m.stack m.control r jobs g s st)
    (clean : (s.group g).failure? = none) (done : (s.group g).isOver = true) :
    ∀ i ∈ jobs, (m.store.job i).state = .finished (.ok ()) := by
  obtain ⟨j, _, _, collecting⟩ := sound.collecting way
  have settling : Settling m.store m.stack m.control s g := way.settling
  have orderly : IsOrderly (s.group g) := by
    cases settling with
    | same same => exact same.orderly orderly
    | ended _ _ _ _ keeps => exact keeps orderly
  obtain ⟨size, ended⟩ := tallied.settling sound collecting settling
  intro i hi
  obtain ⟨k, hk, rfl⟩ := List.getElem_of_mem hi
  have left : (s.group g).left = [] := List.isEmpty_iff.mp done
  have lt : k < (s.group g).errors.length := by rw [orderly.errors, size]; exact hk
  refine ended k _ (List.getElem?_eq_getElem hk) (by simp [left]) ?_
  rw [List.getElem?_eq_getElem lt, error_of_isOver orderly clean done (List.getElem_mem lt)]

/-- A group of jobs that has been made in a step has ended with none of its members. -/
theorem SoundStep.group_eq (step : SoundStep host ρ ρ' m m') (new : NewJob m m' j)
    (state : (m'.store.job j).state = .waiting (.executeAfter r jobs g)) :
    m'.store.group g = .ofSize jobs.length := by
  cases new with
  | deferred hj _ next state' groups _ =>
    subst hj
    cases state.symm.trans state'
    rcases step.rule.groups with same | ⟨_, made⟩
    · exact absurd (groups.symm.trans same) (Nat.succ_ne_self _)
    · cases made with
      | dependencies _ _ next' _ _ | children _ _ next' _ => exact nomatch next.symm.trans next'
      | jobs _ _ state' _ group =>
        cases state.symm.trans state'
        exact group
  | instantiate _ _ _ state' | link _ _ _ state' | graph _ _ _ state' | turn _ _ _ _ state' _
      | ready _ _ _ _ state' => exact nomatch state.symm.trans state'

theorem Tallied.step (tallied : m.Tallied) (step : SoundStep host ρ ρ' m m') : m'.Tallied := by
  intro j r jobs g collecting'
  rcases step.collecting_cases collecting' with collecting | ⟨new, state⟩
  · obtain ⟨_, owner, members⟩ := step.sound.fits_of_collecting collecting
    have lt : g < m.store.groups.size := by
      rw [← step.sound.store.owners]
      exact (List.getElem?_eq_some_iff.mp owner).1
    obtain ⟨size, ended⟩ := tallied.settling step.sound collecting (step.rule.settling lt)
    refine ⟨size, fun k i hi hk error => ?_⟩
    obtain ⟨_, is⟩ := members i (List.mem_of_getElem? hi)
    exact step.ends (step.sound.lt_of_is is) (.inl (ended k i hi hk error))
  · rw [step.group_eq new state]
    refine ⟨rfl, fun k i hi hk _ => ?_⟩
    exact absurd (List.mem_range.mpr (List.getElem?_eq_some_iff.mp hi).1) hk

theorem Tallied.pause (tallied : m.Tallied) (pause : SoundPause ρ m m') : m'.Tallied := by
  intro j r jobs g collecting'
  have kept := pause.change.kept
  have members := kept.members g
  have collecting : m.Collecting j r jobs g := by
    cases collecting' with
    | left has => exact .left (pause.has has)
    | about below => exact absurd (below.subset List.mem_cons_self) (by simp [pause.stack])
  rw [members.size, members.left, members.errors]
  simpa only [kept.state_job] using tallied j r jobs g collecting

/-- In every run, members without an error stand for jobs that have succeeded. -/
theorem Traced.tallied (h : Traced host ρ (m :: trace)) : m.Tallied := by
  refine h.invariant (P := fun _ m => m.Tallied) (fun base resolver memory j r jobs g h => ?_)
    (fun _ step tallied => tallied.step step) fun _ pause tallied => tallied.pause pause
  cases h with
  | left has => exact absurd has not_has_start
  | about below => exact nomatch List.suffix_nil.mp below

end Tallied

end Machine

end ModuleSystem.Loader
