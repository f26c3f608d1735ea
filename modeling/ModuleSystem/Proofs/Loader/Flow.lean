import ModuleSystem.Proofs.Loader.Changes

/-!
# Where activities come from

A step goes on with the innermost activity only. The activities below it stay, and so does the work
of all other jobs. This file says where activities and work come from that were not there before a
step, so that what holds of an activity for as long as it is there has to be shown only where it
starts.

## Main definitions

* `Machine.Has` : a job has some work left, which waits or is being done.
* `Machine.Comes`, `Machine.Pushed` : how work and activities come about.

## Main results

* `Machine.Rule.tail_suffix` : a step leaves the activities below the innermost one alone.
* `Machine.Rule.comes`, `Machine.Rule.pushed` : nothing comes about in other ways.
-/

namespace ModuleSystem.Loader

variable {C M : Type}

namespace Machine

open Store

/-! ### The stack -/

section Stack

variable {host : Host C M} {m m' : Machine C M} {s s₁ : Store C} {st st' : List (Frame C)}
  {c c' : Control C} {r : RecordId} {dependencies rest : List Dependency}
  {children : List LinkNode} {jobs : List JobId} {group : GroupId} {seen : List RecordId}
  {setters : List SetterId} {frame : Frame C}

theorem Joins.tail_suffix (way : Joins s st c r dependencies group s₁ st') : st.tail <:+ st' := by
  cases way with
  | starts => exact List.tail_suffix _
  | settles => exact List.suffix_refl _

theorem HandsOver.tail_suffix (way : HandsOver s st c r dependencies rest s₁ st') :
    st.tail <:+ st' := by
  cases way with
  | resumes => exact List.suffix_refl _
  | starts way => exact way.tail_suffix

theorem Gathers.tail_suffix (way : Gathers s st c r children group seen s₁ st') :
    st.tail <:+ st' := by
  cases way with
  | starts => exact List.tail_suffix _
  | waits | ends | fails => exact List.suffix_refl _

theorem Collects.tail_suffix (way : Collects s st c r jobs group s₁ st') : st.tail <:+ st' := by
  cases way with
  | starts => exact List.tail_suffix _
  | settles => exact List.suffix_refl _

theorem Turn.tail_suffix {rest : List RecordId} (way : Turn s st c r rest jobs seen st') :
    st.tail <:+ st' := by
  cases way with
  | first => exact List.tail_suffix _
  | next => exact List.suffix_refl _

theorem Propagates.suffix (way : Propagates s setters r st s₁ st' c') : st <:+ st' := by
  cases way with
  | queued => exact List.suffix_refl _
  | delivered => exact List.suffix_cons _ _

private theorem suffix_cons_of_suffix (h : st <:+ st') : st <:+ frame :: st' :=
  h.trans (List.suffix_cons _ _)

theorem Move.tail_suffix (h : Move s st c st' c') : st.tail <:+ st' := by
  cases h
  case turnVisits way => exact suffix_cons_of_suffix way.tail_suffix
  case pollWaiting | hookResumes | link | linkGraph | nodeLinks | evaluation | bodyResumes =>
    exact suffix_cons_of_suffix (List.tail_suffix _)
  case graphLinked => exact List.suffix_cons _ _
  all_goals first | exact List.suffix_refl _ | exact List.tail_suffix _

/-- A step leaves the activities below the innermost one alone. -/
theorem Rule.tail_suffix (h : Rule host m m') : m.stack.tail <:+ m'.stack := by
  cases h
  case move h => exact h.tail_suffix
  case asks | pollWaiting | callsHook | bodyStarts =>
    exact suffix_cons_of_suffix (List.tail_suffix _)
  case publishes way =>
    exact (List.tail_suffix _).trans ((List.suffix_cons _ _).trans way.suffix)
  case forgets | skips => exact List.suffix_cons _ _
  case calls => exact suffix_cons_of_suffix (List.suffix_cons _ _)
  case joins way _ => exact suffix_cons_of_suffix way.tail_suffix
  case joinWaits way _ _ | joinOrphaned way _ _ _ | joinFails way _ _ _ _ =>
    exact way.tail_suffix
  case handsOver way _ after => exact (suffix_cons_of_suffix way.tail_suffix).trans after.suffix
  case handedOver way => exact way.tail_suffix
  case gathers way _ _ => exact suffix_cons_of_suffix way.tail_suffix
  case gatherWaits way _ _ _ | gathered way _ _ | gatherOrphaned way _ _ | gatherFails way _ _ =>
    exact way.tail_suffix
  case turnDeferred way _ => exact way.tail_suffix
  case turnComes way => exact suffix_cons_of_suffix way.tail_suffix
  case collects way _ _ => exact suffix_cons_of_suffix way.tail_suffix
  case collectWaits way _ _ _ | collectOrphaned way _ | collectFails way _ _
      | collectTooLate way _ _ | collected way _ _ _ _ => exact way.tail_suffix
  all_goals first | exact List.suffix_refl _ | exact List.tail_suffix _

/-- An activity stays as long as there is another one above it. -/
theorem Rule.suffix (h : Rule host m m') (below : frame :: st <:+ m.stack)
    (inner : m.stack ≠ frame :: st) : frame :: st <:+ m'.stack := by
  obtain ⟨above, stack⟩ := below
  cases above with
  | nil => exact absurd stack.symm inner
  | cons top above =>
    refine List.IsSuffix.trans ⟨above, ?_⟩ h.tail_suffix
    rw [← stack]
    rfl

end Stack

/-! ### Work -/

/-- A job has some work left. -/
inductive Has (m : Machine C M) (j : JobId) (w : Work C) : Prop
  | waits (state : (m.store.job j).state = .waiting w)
  | next {st} (stack : m.stack = .advancing j :: st) (control : m.control = .work w)
  | paused {st} (stack : m.stack = .advancing j :: st) (control : m.control = .paused w)

/-- How the job that is being advanced comes to have other work left. -/
inductive Continues (m m' : Machine C M) : Work C → Prop
  | hookWaits {r code next} (stack : m.stack = .hook r :: m'.stack) (control : m.control = .host code) :
      Continues m m' (.awaitHook r next)
  | bodyWaits {r code next} (stack : m.stack = .body r :: m'.stack) (control : m.control = .host code) :
      Continues m m' (.awaitBody r next)
  | linkWaits {r} (stack : m.stack = .linking r :: m'.stack) (control : m.control = .polled none) :
      Continues m m' (.link r)
  | resolved {r dependencies} (stack : m.stack = .linking r :: m'.stack)
      (control : m.control = .polled (some (.ok ())))
      (registered : ∀ d ∈ dependencies, ∃ e ∈ m'.store.registry, e.2 = d.module)
      (setters : dependencies.map Dependency.setter <+: (m.store.record r).pendingSetters)
      (cleared : r < m.store.records.size → (m'.store.record r).pendingSetters = []) :
      Continues m m' (.awaitDependencies r dependencies m.store.groups.size)
  | joins {r dependencies group s}
      (way : Joins m.store m.stack m.control r dependencies group s m'.stack)
      (left : (s.group group).isOver = false) : Continues m m' (.awaitDependencies r dependencies group)
  | graphWaits {r node seen} (stack : m.stack = .linkingGraph r :: m'.stack)
      (control : m.control = .linked (.ok (some node)) seen) : Continues m m' (.linkGraph r node seen)
  | graphSuspended {i seen} (stack : m.stack = .executingGraph :: m'.stack)
      (control : m.control = .visited (.ok (some i)) seen) : Continues m m' (.awaitEvaluation i)
  | evaluationWaits {i} (stack : m.stack = .evaluating i :: m'.stack)
      (control : m.control = .polled none) : Continues m m' (.awaitEvaluation i)
  | collects {r jobs group s}
      (way : Collects m.store m.stack m.control r jobs group s m'.stack)
      (left : (s.group group).isOver = false) : Continues m m' (.executeAfter r jobs group)
  | collected {r jobs group s}
      (way : Collects m.store m.stack m.control r jobs group s m'.stack)
      (clean : (s.group group).failure? = none) (done : (s.group group).isOver = true)
      (next : m'.control = .work (.runBody r (m.store.record r).body))
      (sound : (m.store.record r).state.error? = none) (taken : Taken m m' r) :
      Continues m m' (.runBody r (m.store.record r).body)

section Work

variable {host : Host C M} {m m' : Machine C M} {s s₁ : Store C} {st st' : List (Frame C)}
  {c c' : Control C} {r : RecordId} {setters : List SetterId} {j : JobId} {w : Work C}

theorem Propagates.control (way : Propagates s setters r st s₁ st' c') :
    c' = .drain ∨ c' = .drained := by
  cases way with
  | queued => exact .inr rfl
  | delivered => exact .inl rfl

private theorem map_snd_zip_prefix {α β : Type} (xs : List α) (ys : List β) :
    (xs.zip ys).map Prod.snd <+: ys := by
  induction xs generalizing ys with
  | nil => exact List.nil_prefix
  | cons x xs ih =>
    cases ys with
    | nil => exact List.nil_prefix
    | cons y ys => exact (List.prefix_cons_inj y).mpr (ih ys)

/-- Work that comes next was left of a job that had to wait, or goes on from other work. -/
theorem Rule.next_work (h : Rule host m m') (next : m'.control = .work w) :
    (∃ j, m.control = .poll j ∧ m'.stack = .advancing j :: m.stack ∧
      (m.store.job j).state = .waiting w) ∨ Continues m m' w := by
  cases h
  case move h =>
    cases h
    case graphSuspended =>
      obtain rfl := Control.work.inj next
      exact .inr (.graphSuspended rfl rfl)
    all_goals exact nomatch next
  case publishes way => rcases way.control with h | h <;> exact nomatch h.symm.trans next
  case handsOver after => rcases after.control with h | h <;> exact nomatch h.symm.trans next
  case pollWaiting waits _ =>
    obtain rfl := Control.work.inj next
    exact .inl ⟨_, rfl, rfl, waits⟩
  case resolves resolved =>
    obtain rfl := Control.work.inj next
    have creates := creates_resolveDependencies resolved
    have size := creates.same.2.1
    rw [update_same.2.2.2.1] at size
    rw [size]
    refine .inr (.resolved rfl rfl (by simpa using registered_of_resolveDependencies resolved) ?_
      fun hr => ?_)
    · rw [setters_of_resolveDependencies resolved]
      exact map_snd_zip_prefix _ _
    · rw [newGroup_same.1, creates.record_eq (by simpa using hr), record_update_self hr]
  case collected way clean done _ sound =>
    obtain rfl := Control.work.inj next
    have record := way.still.record
    rw [record] at sound ⊢
    refine .inr (.collected way clean done rfl sound ⟨body_takeTurn, fun hr => ?_⟩)
    rw [record_takeTurn_self (way.still.size_records ▸ hr), record]
  all_goals exact nomatch next

/-- Work that is put aside goes on from other work. -/
theorem Rule.paused_work (h : Rule host m m') (next : m'.control = .paused w) :
    Continues m m' w := by
  cases h
  case move h =>
    cases h
    case linkWaits =>
      obtain rfl := Control.paused.inj next
      exact .linkWaits rfl rfl
    case graphWaits =>
      obtain rfl := Control.paused.inj next
      exact .graphWaits rfl rfl
    case evaluationWaits =>
      obtain rfl := Control.paused.inj next
      exact .evaluationWaits rfl rfl
    all_goals exact nomatch next
  case hookWaits =>
    obtain rfl := Control.paused.inj next
    exact .hookWaits rfl rfl
  case bodyWaits =>
    obtain rfl := Control.paused.inj next
    exact .bodyWaits rfl rfl
  case publishes way => rcases way.control with h | h <;> exact nomatch h.symm.trans next
  case handsOver after => rcases after.control with h | h <;> exact nomatch h.symm.trans next
  case joinWaits way _ left =>
    obtain rfl := Control.paused.inj next
    exact .joins way left
  case collectWaits way _ _ left =>
    obtain rfl := Control.paused.inj next
    exact .collects way left
  all_goals exact nomatch next

/-- Work is left that was left before, or that is the first of a new job, or the job that is being
advanced has come to it. -/
theorem Rule.comes (h : Rule host m m') (has : m'.Has j w) :
    m.Has j w ∨ m.store.jobs.size ≤ j ∧ (m'.store.job j).state = .waiting w ∨
      (∃ st, m'.stack = .advancing j :: st) ∧ Continues m m' w := by
  cases has with
  | waits state =>
    rcases Nat.lt_or_ge j m.store.jobs.size with hj | hj
    · refine .inl ?_
      cases h.advance with
      | same _ same => exact .waits ((same j hj).symm.trans state)
      | takes _ _ _ _ same | ends _ _ _ same | abandons _ _ _ same =>
        rw [same] at state
        split_ifs at state
        exact .waits state
      | putsAside control _ stack same =>
        rw [same] at state
        split_ifs at state with hj'
        · obtain rfl := JobState.waiting.inj state
          rw [hj'.1]
          exact .paused stack control
        · exact .waits state
    · exact .inr (.inl ⟨hj, state⟩)
  | next stack control =>
    rcases h.next_work control with ⟨i, _, stack', state⟩ | continues
    · rw [stack] at stack'
      cases stack'
      exact .inl (.waits state)
    · exact .inr (.inr ⟨⟨_, stack⟩, continues⟩)
  | paused stack control => exact .inr (.inr ⟨⟨_, stack⟩, h.paused_work control⟩)

end Work

/-! ### Activities -/

/-- Whether an activity is about no module of its own. -/
def IsPlain : Frame C → Prop
  | .setter _ | .asking _ | .advancing _ | .draining | .publishing => True
  | _ => False

/-- Some setters of a module are handed over to its dependencies, up to one that is to be called,
with others left. -/
inductive HandsOn (m m' : Machine C M) (r : RecordId) (dependencies before : List Dependency)
    (dependency : Dependency) (rest : List Dependency) : Prop
  | intro {setter s st}
      (way : HandsOver m.store m.stack m.control r dependencies (before ++ dependency :: rest) s st)
      (silent : ∀ d ∈ before, d.setter ≠ none → ¬ (m.store.record d.module).IsVisible)
      (listens : dependency.setter = some setter)
      (after : Propagates ((before ++ [dependency]).foldl listen s) [setter] dependency.module
        (.handingOver r dependencies rest :: st) m'.store m'.stack m'.control)

/-- How an activity starts, or goes on with another member. -/
inductive Pushed (m m' : Machine C M) : Frame C → Prop
  | plain {frame} (h : IsPlain frame) : Pushed m m' frame
  | importing {r j} (control : m.control = .serve (.poll (.waiting r j)))
      (stack : m'.stack = .importing r :: m.stack) : Pushed m m' (.importing r)
  | calledHook {r} (control : m.control = .work (.instantiate r))
      (stack : m'.stack = .hook r :: m.stack) : Pushed m m' (.hook r)
  | hook {r code} (control : m.control = .work (.awaitHook r code))
      (stack : m'.stack = .hook r :: m.stack) : Pushed m m' (.hook r)
  | startedBody {r code} (control : m.control = .work (.runBody r (some code)))
      (stack : m'.stack = .body r :: m.stack) : Pushed m m' (.body r)
  | body {r code} (control : m.control = .work (.awaitBody r code))
      (stack : m'.stack = .body r :: m.stack) : Pushed m m' (.body r)
  | linking {r} (control : m.control = .work (.link r))
      (stack : m'.stack = .linking r :: m.stack) : Pushed m m' (.linking r)
  | joining {r dependencies group i s st}
      (way : Joins m.store m.stack m.control r dependencies group s st)
      (stack : m'.stack = .joining r dependencies group i :: st) :
      Pushed m m' (.joining r dependencies group i)
  | handingOver {r dependencies before dependency rest}
      (hands : HandsOn m m' r dependencies before dependency rest) :
      Pushed m m' (.handingOver r dependencies rest)
  | linkingGraph {r node seen} (control : m.control = .work (.linkGraph r node seen))
      (stack : m'.stack = .linkingGraph r :: m.stack) : Pushed m m' (.linkingGraph r)
  | linkingNode {r seen} (control : m.control = .link (.awaitLinked r) seen)
      (stack : m'.stack = .linkingNode r seen :: m.stack) : Pushed m m' (.linkingNode r seen)
  | linkingChildren {r children group i seen s st}
      (way : Gathers m.store m.stack m.control r children group seen s st)
      (stack : m'.stack = .linkingChildren r children group i :: st) :
      Pushed m m' (.linkingChildren r children group i)
  | executingGraph {r seen st} (stack : m.stack = .linkingGraph r :: st)
      (control : m.control = .linked (.ok none) seen) (next : m'.stack = .executingGraph :: st) :
      Pushed m m' .executingGraph
  | visiting {r d rest jobs seen st}
      (way : Turn m.store m.stack m.control r (d :: rest) jobs seen st)
      (stack : m'.stack = .visiting r rest jobs :: st) : Pushed m m' (.visiting r rest jobs)
  | executing {r seen st} (way : Turn m.store m.stack m.control r [] [] seen st)
      (stack : m'.stack = .executing r m.store.jobs.size seen :: st)
      (store : m'.store = ((m.store.takeTurn r).newJob
        (.waiting (.runBody r (m.store.record r).body))).1) :
      Pushed m m' (.executing r m.store.jobs.size seen)
  | evaluating {i} (control : m.control = .work (.awaitEvaluation i))
      (stack : m'.stack = .evaluating i :: m.stack) : Pushed m m' (.evaluating i)
  | executingAfter {r jobs group i s st}
      (way : Collects m.store m.stack m.control r jobs group s st)
      (stack : m'.stack = .executingAfter r jobs group i :: st) :
      Pushed m m' (.executingAfter r jobs group i)

section Frames

variable {host : Host C M} {m m' : Machine C M} {s s₁ : Store C} {st st' : List (Frame C)}
  {c c' : Control C} {r : RecordId} {dependencies rest : List Dependency}
  {children : List LinkNode} {jobs : List JobId} {group : GroupId} {seen : List RecordId}
  {setters : List SetterId} {frame : Frame C} {below : List (Frame C)}

theorem Joins.suffix (way : Joins s st c r dependencies group s₁ st') : st' <:+ st := by
  cases way with
  | starts => exact List.suffix_refl _
  | settles => exact List.suffix_cons _ _

theorem HandsOver.suffix (way : HandsOver s st c r dependencies rest s₁ st') : st' <:+ st := by
  cases way with
  | resumes => exact List.suffix_cons _ _
  | starts way => exact way.suffix

theorem Gathers.suffix (way : Gathers s st c r children group seen s₁ st') : st' <:+ st := by
  cases way with
  | starts => exact List.suffix_refl _
  | waits | ends | fails => exact List.suffix_cons _ _

theorem Collects.suffix (way : Collects s st c r jobs group s₁ st') : st' <:+ st := by
  cases way with
  | starts => exact List.suffix_refl _
  | settles => exact List.suffix_cons _ _

theorem Turn.suffix {rest : List RecordId} (way : Turn s st c r rest jobs seen st') :
    st' <:+ st := by
  cases way with
  | first => exact List.suffix_refl _
  | next => exact List.suffix_cons _ _

/-- Whether an activity is one that the delivery of notifications may be started above. -/
def MayDeliver : Frame C → Prop
  | .publishing | .handingOver .. => True
  | _ => False

/-- An activity was there before a step, with the same ones below it, or it starts. -/
theorem Rule.started (h : Rule host m m') (mem : frame :: below <:+ m'.stack) :
    frame :: below <:+ m.stack ∨
      Pushed m m' frame ∧ (m'.stack = frame :: below ∨ MayDeliver frame) := by
  have top : ∀ {f : Frame C} {st : List (Frame C)}, m'.stack = f :: st → st <:+ m.stack →
      Pushed m m' f → frame :: below <:+ m.stack ∨
        Pushed m m' frame ∧ (m'.stack = frame :: below ∨ MayDeliver frame) := by
    intro f st stack suffix pushed
    rw [stack] at mem ⊢
    rcases List.suffix_cons_iff.mp mem with heq | mem
    · cases heq
      exact .inr ⟨pushed, .inl rfl⟩
    · exact .inl (mem.trans suffix)
  have delivers : ∀ {s s₁ : Store C} {setters : List SetterId} {r : RecordId} {f : Frame C}
      {st : List (Frame C)}, Propagates s setters r (f :: st) s₁ m'.stack m'.control → st <:+ m.stack → MayDeliver f →
      Pushed m m' f → frame :: below <:+ m.stack ∨
        Pushed m m' frame ∧ (m'.stack = frame :: below ∨ MayDeliver frame) := by
    intro s s₁ setters r f st way suffix may pushed
    generalize hst : m'.stack = stack at way mem
    generalize m'.control = c at way
    cases way with
    | queued =>
      rw [← hst] at mem ⊢
      exact top hst suffix pushed
    | delivered =>
      rcases List.suffix_cons_iff.mp mem with heq | mem
      · cases heq
        exact .inr ⟨.plain trivial, .inl rfl⟩
      · rcases List.suffix_cons_iff.mp mem with heq | mem
        · cases heq
          exact .inr ⟨pushed, .inr may⟩
        · exact .inl (mem.trans suffix)
  have popped : ∀ {st : List (Frame C)}, m'.stack = st → st <:+ m.stack →
      frame :: below <:+ m.stack ∨
        Pushed m m' frame ∧ (m'.stack = frame :: below ∨ MayDeliver frame) := by
    intro st stack suffix
    rw [stack] at mem
    exact .inl (mem.trans suffix)
  cases h
  case move h =>
    cases h
    case pollWaiting => exact top rfl (List.suffix_refl _) (.importing rfl rfl)
    case hookResumes => exact top rfl (List.suffix_refl _) (.hook rfl rfl)
    case link => exact top rfl (List.suffix_refl _) (.linking rfl rfl)
    case linkGraph => exact top rfl (List.suffix_refl _) (.linkingGraph rfl rfl)
    case nodeLinks => exact top rfl (List.suffix_refl _) (.linkingNode rfl rfl)
    case graphLinked => exact top rfl (List.suffix_cons _ _) (.executingGraph rfl rfl rfl)
    case turnVisits way => exact top rfl way.suffix (.visiting way rfl)
    case evaluation => exact top rfl (List.suffix_refl _) (.evaluating rfl rfl)
    case bodyResumes => exact top rfl (List.suffix_refl _) (.body rfl rfl)
    all_goals first | exact .inl mem | exact .inl (mem.trans (List.suffix_cons _ _))
  case asks | pollWaiting => exact top rfl (List.suffix_refl _) (.plain trivial)
  case publishes way => exact delivers way (List.suffix_refl _) (by trivial) (.plain (by trivial))
  case calls => exact top rfl (List.suffix_refl _) (.plain trivial)
  case callsHook => exact top rfl (List.suffix_refl _) (.calledHook rfl rfl)
  case bodyStarts => exact top rfl (List.suffix_refl _) (.startedBody rfl rfl)
  case joins way _ => exact top rfl way.suffix (.joining way rfl)
  case handsOver silent way listens after =>
    rw [way.still.record] at silent
    exact delivers after way.suffix (by trivial) (.handingOver (.intro way silent listens after))
  case gathers way _ _ => exact top rfl way.suffix (.linkingChildren way rfl)
  case turnComes way => exact top rfl way.suffix (.executing way rfl rfl)
  case collects way _ _ => exact top rfl way.suffix (.executingAfter way rfl)
  case joinWaits way _ _ | joinOrphaned way _ _ _ | joinFails way _ _ _ _ =>
    exact popped rfl way.suffix
  case handedOver way => exact popped rfl way.suffix
  case gatherWaits way _ _ _ | gathered way _ _ | gatherOrphaned way _ _ | gatherFails way _ _ =>
    exact popped rfl way.suffix
  case turnDeferred way _ => exact popped rfl way.suffix
  case collectWaits way _ _ _ | collectOrphaned way _ | collectFails way _ _
      | collectTooLate way _ _ | collected way _ _ _ _ => exact popped rfl way.suffix
  all_goals first | exact .inl mem | exact .inl (mem.trans (List.suffix_cons _ _))

/-- An activity was there before a step, or it starts. -/
theorem Rule.pushed (h : Rule host m m') (mem : frame ∈ m'.stack) :
    frame ∈ m.stack ∨ Pushed m m' frame := by
  obtain ⟨above, below, stack⟩ := List.append_of_mem mem
  rcases h.started ⟨above, stack.symm⟩ with suffix | ⟨pushed, _⟩
  · exact .inl (suffix.subset List.mem_cons_self)
  · exact .inr pushed

end Frames

/-! ### Jobs that end -/

/-- A job has ended, or does so next. -/
def Ends (m : Machine C M) (j : JobId) (outcome : Outcome) : Prop :=
  (m.store.job j).state = .finished outcome ∨
    m.control = .ended outcome ∧ ∃ st, m.stack = .advancing j :: st

/-- A job whose dependencies are looked at does not end yet. -/
theorem Joins.not_ended {s s₁ : Store C} {st st' : List (Frame C)} {c : Control C} {r : RecordId}
    {dependencies : List Dependency} {group : GroupId} {outcome : Outcome}
    (way : Joins s st c r dependencies group s₁ st') : c ≠ .ended outcome := by
  cases way with
  | starts | settles => nofun

/-- A job that hands over setters does not end yet. -/
theorem HandsOver.not_ended {s s₁ : Store C} {st st' : List (Frame C)} {c : Control C}
    {r : RecordId} {dependencies rest : List Dependency} {outcome : Outcome}
    (way : HandsOver s st c r dependencies rest s₁ st') : c ≠ .ended outcome := by
  cases way with
  | resumes => nofun
  | starts way => exact way.not_ended

/-- How the job that is being advanced comes to succeed. -/
inductive Succeeds (m m' : Machine C M) : Prop
  | hook {r code} (stack : m.stack = .hook r :: m'.stack) (control : m.control = .host code)
  | linked {r dependencies rest s}
      (way : HandsOver m.store m.stack m.control r dependencies rest s m'.stack)
      (state : r < m.store.records.size →
        (m'.store.record r).state = .linked ∨ ∃ error, (m'.store.record r).state = .failed error)
  | graph {seen} (stack : m.stack = .executingGraph :: m'.stack)
      (control : m.control = .visited (.ok none) seen) (store : m'.store = m.store)
  | evaluation {i} (stack : m.stack = .evaluating i :: m'.stack)
      (control : m.control = .polled (some (.ok ()))) (store : m'.store = m.store)
  | body {r code} (stack : m.stack = .body r :: m'.stack) (control : m.control = .host code)
  | bodyless {r} (control : m.control = .work (.runBody r none)) (stack : m'.stack = m.stack)

section Ending

variable {host : Host C M} {m m' : Machine C M} {r : RecordId} {j : JobId} {outcome : Outcome}

theorem Rule.succeeds (h : Rule host m m') (next : m'.control = .ended (.ok ())) :
    Succeeds m m' := by
  have entered : ∀ {x : Record C} {state : ModuleState}, (x.enter state).state = state ∨
      ∃ error, (x.enter state).state = .failed error := by
    intro x state
    exact Record.state_enter_cases.imp_right fun ⟨error, h⟩ => ⟨error, h.2⟩
  cases h
  case move h =>
    cases h
    case graphExecuted => exact .graph rfl rfl rfl
    case evaluationEnds =>
      obtain rfl := Control.ended.inj next
      exact .evaluation rfl rfl rfl
    all_goals exact nomatch next
  case hookEnds => exact .hook rfl rfl
  case bodyEnds => exact .body rfl rfl
  case publishes way => rcases way.control with h | h <;> exact nomatch h.symm.trans next
  case handsOver after => rcases after.control with h | h <;> exact nomatch h.symm.trans next
  case handedOver way =>
    refine .linked way fun hr => ?_
    rw [record_attach_self ?_]
    · exact entered
    · rwa [(idle_foldl idle_listen _ _).size_records, way.still.size_records]
  case bodyless => exact .bodyless rfl rfl
  all_goals exact nomatch next

end Ending

/-! ### Hooks, bodies and setters -/

/-- A hook or a setter is called in a step, or a body starts or ends, or exports are changed. -/
inductive Happens (m m' : Machine C M) : Event → Prop
  | hookCalled {r} (control : m.control = .work (.instantiate r))
      (stack : m'.stack = .hook r :: m.stack) (alive : m.store.isAlive r = true) :
      Happens m m' (.hookCalled r)
  | bodyStarted {r code} (control : m.control = .work (.runBody r (some code)))
      (stack : m'.stack = .body r :: m.stack) (next : m'.control = .host code) :
      Happens m m' (.bodyStarted r)
  | bodyEnded {r code succeeded} (stack : m.stack = .body r :: m'.stack)
      (control : m.control = .host code) : Happens m m' (.bodyEnded r succeeded)
  | changed {r entries} (control : m.control = .serve (.publish r entries))
      (told : ∀ x ∈ (m.store.record r).importerSetters, (x, r) ∈ m'.store.queue) :
      Happens m m' (.changed r)
  | called {x r} (queue : m.store.queue = (x, r) :: m'.store.queue)
      (history : m'.store.history = .called x r :: m.store.history) : Happens m m' (.called x r)

/-- Whether an event is about host code or what it publishes. -/
def IsCall : Event → Prop
  | .hookCalled _ | .bodyStarted _ | .bodyEnded _ _ | .changed _ | .called _ _ => True
  | _ => False

section Happens

variable {host : Host C M} {m m' : Machine C M} {e : Event}

/-- Each of these has happened as often as before a step, or once more. -/
theorem Rule.happens (h : Rule host m m') (call : IsCall e) :
    m'.store.milestones.count e = m.store.milestones.count e ∨
      m'.store.milestones = e :: m.store.milestones ∧ Happens m m' e := by
  have registered : ∀ r, e ≠ .registered r := by
    rintro r rfl
    exact call
  have deleted : ∀ r, e ≠ .deleted r := by
    rintro r rfl
    exact call
  have noted : ∀ {e'}, m'.store.milestones = e' :: m.store.milestones → Happens m m' e' →
      m'.store.milestones.count e = m.store.milestones.count e ∨
        m'.store.milestones = e :: m.store.milestones ∧ Happens m m' e := by
    intro e' milestones happens
    by_cases he : e' = e
    · subst he
      exact .inr ⟨milestones, happens⟩
    · rw [milestones, List.count_cons_of_ne he]
      exact .inl rfl
  cases h.news with
  | none milestones _ _ => exact .inl (by rw [milestones])
  | hookCalled control stack alive milestones _ _ =>
    exact noted milestones (.hookCalled control stack alive)
  | bodyStarted control stack next milestones _ _ =>
    exact noted milestones (.bodyStarted control stack next)
  | bodyEnded stack control milestones _ _ => exact noted milestones (.bodyEnded stack control)
  | changed control told milestones _ _ => exact noted milestones (.changed control told)
  | called queue history milestones _ _ => exact noted milestones (.called queue history)
  | made idle creates milestones _ _ _ =>
    refine .inl ?_
    rw [milestones, creates.count_milestones registered, idle.milestones]
  | deleted _ store =>
    refine .inl ?_
    rw [store, count_milestones_delete deleted]
  | defined _ _ store =>
    refine .inl ?_
    rw [store, define_same.2.2.2.2.2.2, List.count_cons_of_ne (registered _).symm,
      count_milestones_delete deleted]

/-- What has happened after a step had happened before, or happens in it. -/
theorem Rule.happens_of_mem (h : Rule host m m') (mem : e ∈ m'.store.milestones)
    (call : IsCall e) : e ∈ m.store.milestones ∨ Happens m m' e := by
  rcases h.happens call with count | ⟨_, happens⟩
  · rw [← List.count_pos_iff, count, List.count_pos_iff] at mem
    exact .inl mem
  · exact .inr happens

/-- A milestone that has been reached stays so. -/
theorem Rule.milestones_suffix (h : Rule host m m') :
    m.store.milestones <:+ m'.store.milestones := by
  cases h.news with
  | none milestones _ _ => exact milestones ▸ List.suffix_refl _
  | hookCalled _ _ _ milestones _ _ | bodyStarted _ _ _ milestones _ _
      | bodyEnded _ _ milestones _ _ | changed _ _ milestones _ _ | called _ _ milestones _ _ =>
    exact milestones ▸ List.suffix_cons _ _
  | made idle creates milestones _ _ _ =>
    rw [milestones, ← idle.milestones]
    exact creates.milestones_suffix
  | deleted _ store =>
    rw [store]
    exact milestones_delete_suffix ..
  | defined _ _ store =>
    rw [store, define_same.2.2.2.2.2.2]
    exact (milestones_delete_suffix ..).trans (List.suffix_cons _ _)

theorem Rule.mem_milestones (h : Rule host m m') (mem : e ∈ m.store.milestones) :
    e ∈ m'.store.milestones :=
  h.milestones_suffix.subset mem

end Happens

end Machine

end ModuleSystem.Loader
