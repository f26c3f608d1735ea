import ModuleSystem.Proofs.Loader.Barrier
import ModuleSystem.Proofs.Loader.Waiting

/-!
# Steps of those that wait

What a step does to those that wait is always one of few things (`Machine.Shift`). A job is taken
up by whoever polls it, or put aside, or it ends; or an attempt at a group goes on; or nobody is
concerned. An attempt is the same for all groups: it starts with what is left, or one of its members
has had to wait or has ended (`Machine.Attends`), and then the next member is advanced, or the
attempt is over (`Machine.After`).

A group belongs to one job, and to one place within it. So the attempt that goes on in a step is not
at a group of any other activity, nor at one that any of them waits for (`Awaits.apart`).

## Main definitions

* `Control.stuck?`, `Control.left` : what has to go on first, and what is left to do.
* `Frame.attempt?` : the attempt that an activity makes.
* `Machine.Shift` : what a step does to those that wait.

## Main results

* `Machine.Rule.shift` : every step does one of these things.
* `Awaits.apart` : attempts do not get in each other's way.
-/

namespace ModuleSystem.Loader

variable {C M : Type}

/-! ### What is waited for -/

/-- What an activity waits for that has a job advanced. An import waits for nothing by itself. -/
def Frame.wait? : Frame C → Option Wait
  | linking r => some (.instantiation r)
  | joining _ dependencies _ k =>
    some (dependencies[k]?.elim .nothing fun d => .instantiation d.module)
  | linkingNode r _ => some (.linking r)
  | executing _ j _ | evaluating j => some (.job j)
  | executingAfter _ jobs _ k => some (jobs[k]?.elim .nothing .job)
  | _ => none

/-- The attempt that an activity makes: what the members of the group wait for, the group, and the
member that is being advanced. -/
def Frame.attempt? : Frame C → Option (List Wait × GroupId × Nat)
  | joining _ dependencies g k => some (dependencies.map fun d => .instantiation d.module, g, k)
  | linkingChildren _ children g k => some (children.map LinkNode.wait, g, k)
  | executingAfter _ jobs g k => some (jobs.map .job, g, k)
  | _ => none

/-- What has to go on before what has just had to wait can. -/
def Control.stuck? (st : List (Frame C)) : Control C → Option Wait
  | .paused w => some w.wait
  | .linked (.ok (some node)) _ => some node.wait
  | .polled none => st.head?.bind Frame.wait?
  | _ => none

/-- What the work that is at hand waits for, as far as it has been begun. -/
def Control.left : Control C → Wait
  | .work w | .paused w => w.wait
  | .link node _ | .linked (.ok (some node)) _ => node.wait
  | _ => .nothing

theorem Frame.listener?_of_attempt? {frame : Frame C} {members : List Wait} {g : GroupId} {k : Nat}
    (h : frame.attempt? = some (members, g, k)) (s : Store C) :
    frame.listener? s = if (s.group g).isMany then some (.member g k) else none := by
  cases frame <;> cases h <;> rfl

/-- Taking the next member is a matter of the indices only. -/
theorem Group.next?_map {α β : Type} (f : α → β) (xs : List α) (g : Group) :
    g.next? (xs.map f) = (g.next? xs).map fun (x, i, g) => (f x, i, g) := by
  unfold Group.next?
  split
  · rfl
  · split
    · rfl
    · rw [List.getElem?_map, Option.map_map, Option.map_map]
      rfl

namespace Machine

open Store

/-! ### Attempts at groups -/

/-- An attempt at a group is being made: it starts, or a member has had to wait or has ended. -/
inductive Attends (s : Store C) : List (Frame C) → Control C → List Wait → GroupId → Store C →
    List (Frame C) → Prop
  | starts {st c members g} (fresh : c.stuck? st = none) (left : c.left = .group g members) :
      Attends s st c members g (s.setGroup g ((s.group g).start (ear s st))) st
  | waits {frame st c members g k w} (attempt : frame.attempt? = some (members, g, k))
      (stuck : c.stuck? (frame :: st) = some w) (left : c.left = w ∨ w.isGroup = false) :
      Attends s (frame :: st) c (members.set k w) g (s.settle g k none (ear s st)) st
  | ends {frame st c members g k outcome} (attempt : frame.attempt? = some (members, g, k)) :
      Attends s (frame :: st) c members g (s.settle g k (some outcome) (ear s st)) st

/-- The activities of a stack have been there before, but for such as have nobody wait. -/
def Extends (st st' : List (Frame C)) : Prop :=
  ∀ frame below, frame :: below <:+ st' →
    frame :: below <:+ st ∨ frame.attempt? = none ∧ advanced [frame] = []

/-- How an attempt at a group goes on: the next member is advanced, or nothing more can be done, or
the attempt is over for good. -/
inductive After (s : Store C) (st : List (Frame C)) (members : List Wait) (g : GroupId) :
    Store C → List (Frame C) → Control C → Prop
  | next {w k group frame c} (next : (s.group g).next? members = some (w, k, group))
      (attempt : frame.attempt? = some (members, g, k)) (stuck : c.stuck? (frame :: st) = none)
      (left : c.left = .nothing ∨ c.left = w) :
      After s st members g (s.setGroup g group) (frame :: st) c
  | rests {c} (next : (s.group g).next? members = none) (scope : (s.group g).isOver = false)
      (stuck : c.stuck? st = some (.group g members)) (left : c.left = .group g members) :
      After s st members g s st c
  | settles {s' st' c} (rouses : Rouses Everyone s s') (size : s'.groups.size = s.groups.size)
      (stack : Extends st st') (stuck : c.stuck? st' = none) (left : c.left = .nothing) :
      After s st members g s' st' c

/-- What a step does to those that wait. -/
inductive Shift (m m' : Machine C M) : Prop
  /-- Listeners are told at most. -/
  | goes (rouses : Rouses Everyone m.store m'.store) (stack : Extends m.stack m'.stack)
      (stuck : ∀ w, m'.control.stuck? m'.stack = some w → w = .host ∨
        m.control.stuck? m.stack = some w ∧ ear m.store m'.stack = ear m.store m.stack)
      (left : m'.control.left = m.control.left ∨ m'.control.left.isGroup = false ∨
        ∃ g members, m'.control.left = .group g members ∧
          m'.store.group g = .ofSize members.length ∧ ∀ w ∈ members, w.isGroup = false)
  /-- A job is taken up. -/
  | takes {j w} (control : m.control = .poll j) (waits : (m.store.job j).state = .waiting w)
      (store : m'.store = (m.store.subscribe j (ear m.store m.stack)).setJob j .running)
      (stack : m'.stack = .advancing j :: m.stack) (next : m'.control = .work w)
  /-- A job is put aside. -/
  | putsAside {j w} (stack : m.stack = .advancing j :: m'.stack) (control : m.control = .paused w)
      (next : m'.control = .polled none) (store : m'.store = m.store.setJob j (.waiting w))
  | ends {j outcome} (stack : m.stack = .advancing j :: m'.stack)
      (control : m.control = .ended outcome) (next : m'.control = .polled (some outcome))
      (store : m'.store = m.store.finish j outcome)
  | attends {members g s st} (way : Attends m.store m.stack m.control members g s st)
      (after : After s st members g m'.store m'.stack m'.control)

section Shift

variable {host : Host C M} {m m' : Machine C M} {s s₁ s' : Store C}
  {st st' st₁ : List (Frame C)}
  {c c' : Control C} {r : RecordId} {dependencies rest : List Dependency}
  {children : List LinkNode} {jobs : List JobId} {group : GroupId} {seen : List RecordId}
  {setters : List SetterId} {frame : Frame C}

theorem extends_of_suffix (h : st' <:+ st) : Extends st st' :=
  fun _ _ below => .inl (below.trans h)

theorem Extends.cons (h : Extends st st') (plain : frame.attempt? = none)
    (plain' : advanced [frame] = []) : Extends st (frame :: st') := by
  intro frame' below suffix
  rcases List.suffix_cons_iff.mp suffix with same | inner
  · cases same
    exact .inr ⟨plain, plain'⟩
  · exact h _ _ inner

private theorem set_map_elim {α : Type} (xs : List α) (f : α → Wait) (k : Nat) :
    (xs.map f).set k (xs[k]?.elim .nothing f) = xs.map f := by
  by_cases lt : k < xs.length
  · rw [List.getElem?_eq_getElem lt]
    have known : k < (xs.map f).length := by simpa using lt
    conv_rhs => rw [← List.set_getElem_self known]
    simp
  · rw [List.set_eq_of_length_le (by simpa using lt)]

theorem Joins.attends (way : Joins s st c r dependencies group s₁ st') :
    Attends s st c (dependencies.map fun d => .instantiation d.module) group s₁ st' := by
  cases way with
  | starts l own =>
    subst own
    exact .starts rfl rfl
  | @settles _ _ _ _ k outcome l own =>
    subst own
    cases outcome with
    | none =>
      rw [← set_map_elim dependencies (fun d => .instantiation d.module) k]
      refine .waits rfl rfl (.inr ?_)
      cases dependencies[k]? <;> rfl
    | some outcome => exact .ends rfl

theorem Gathers.attends (way : Gathers s st c r children group seen s₁ st') :
    Attends s st c (children.map LinkNode.wait) group s₁ st' := by
  cases way with
  | starts l own =>
    subst own
    exact .starts rfl (by rw [Control.left, LinkNode.wait])
  | waits l own =>
    subst own
    rw [List.map_set]
    exact .waits rfl rfl (.inl rfl)
  | ends l own | fails l own =>
    subst own
    exact .ends rfl

theorem Collects.attends (way : Collects s st c r jobs group s₁ st') :
    Attends s st c (jobs.map .job) group s₁ st' := by
  cases way with
  | starts l own =>
    subst own
    exact .starts rfl rfl
  | @settles _ _ _ _ k outcome l own =>
    subst own
    cases outcome with
    | none =>
      rw [← set_map_elim jobs .job k]
      refine .waits rfl rfl (.inr ?_)
      cases jobs[k]? <;> rfl
    | some outcome => exact .ends rfl

/-! ### Stores in which nobody is told -/

theorem rouses_refl (s : Store C) : Rouses Everyone s s :=
  rouses_of_eq rfl rfl

theorem active_newJob (s : Store C) (state : JobState C) (j : JobId) :
    ((s.newJob state).1.job j).active = (s.job j).active := by
  unfold newJob Store.job
  rw [Array.getElem?_push]
  split_ifs with new
  · rw [new, Array.getElem?_eq_none (Nat.le_refl _)]
    rfl
  · rfl

theorem rouses_newJob (s : Store C) (state : JobState C) : Rouses Everyone s (s.newJob state).1 :=
  rouses_of_same (active_newJob s state) fun _ => .inl rfl

theorem active_setJob (s : Store C) (i j : JobId) (state : JobState C) :
    ((s.setJob i state).job j).active = (s.job j).active := by
  rw [setJob, job_updateJob]
  split_ifs <;> rfl

theorem rouses_setJob (s : Store C) (j : JobId) (state : JobState C) :
    Rouses Everyone s (s.setJob j state) :=
  rouses_of_same (fun j' => active_setJob s j j' state) fun _ => .inl rfl

theorem rouses_newGroup (s : Store C) (n : Nat) : Rouses Everyone s (s.newGroup n).1 := by
  refine rouses_of_same (fun _ => rfl) fun g => ?_
  rw [group_newGroup]
  split_ifs with new
  · exact .inr ⟨Nat.le_of_eq new.symm, n, rfl⟩
  · exact .inl rfl

theorem rouses_creates (h : Creates s s') : Rouses Everyone s s' := by
  refine rouses_of_same (fun j => ?_) fun g => .inl (by rw [h.same.1])
  induction h with
  | refl => rfl
  | @create s' _ url referrer _ ih =>
    refine Eq.trans ?_ ih
    rw [create, register_same.2.1, active_newJob, active_newJob]

theorem rouses_of_resolved {url : Url} {f : Record C → Record C}
    {specifiers : List (String × Option SetterId)} {result : Except LoaderError (List Dependency)}
    (h : resolveDependencies url (s.update r f) specifiers = (s', result)) :
    Rouses Everyone s s' ∧ s'.groups.size = s.groups.size := by
  have creates := creates_resolveDependencies h
  have updated : Rouses Everyone s (s.update r f) := rouses_of_eq update_same.1 update_same.2.2.1
  exact ⟨updated.trans (rouses_creates creates) (Nat.le_refl _), creates.same.2.1⟩

theorem rouses_importRecord (s : Store C) (r : RecordId) :
    Rouses Everyone s (importRecord s r).1 := by
  rcases importRecord_cases s r with ⟨_, _, eq⟩ | ⟨_, eq⟩ | ⟨_, _, eq⟩ | ⟨_, _, _, eq⟩
  · rw [eq]
    exact rouses_refl s
  · rw [eq]
    exact rouses_refl s
  · rw [eq]
    exact rouses_refl s
  · rw [eq]
    exact rouses_of_same (active_newJob s _) fun _ => .inl rfl

theorem rouses_define (s : Store C) (url : Url) (entries : List (String × Value)) :
    Rouses Everyone s (s.define url entries).1 := by
  obtain ⟨bindings, eq⟩ := define_eq s url entries
  refine rouses_of_same (fun j => ?_) fun g => .inl (by rw [define_same.2.2.1])
  rw [eq, register_same.2.1, active_newJob, delete_same.2.1]

/-! ### Moves -/

private theorem Move.extends (h : Move s st c st' c') : Extends st st' := by
  cases h
  case turnVisits way => exact (extends_of_suffix way.suffix).cons rfl rfl
  all_goals first
    | exact extends_of_suffix (List.suffix_refl _)
    | exact extends_of_suffix (List.suffix_cons _ _)
    | exact (extends_of_suffix (List.suffix_refl _)).cons rfl rfl
    | exact (extends_of_suffix (List.suffix_cons _ _)).cons rfl rfl

/-- Who has to wait after a move has had to wait before. -/
private theorem Move.stuck {w : Wait} (h : Move s st c st' c') (stuck : c'.stuck? st' = some w) :
    c.stuck? st = some w ∧ ear s st' = ear s st := by
  cases h
  case linkWaits | evaluationWaits | graphWaits => exact ⟨stuck, rfl⟩
  case nodeWaits => exact ⟨by simpa [Control.stuck?, LinkNode.wait, Frame.wait?] using stuck, rfl⟩
  all_goals cases stuck

/-- What is left to do after a move has been left before, unless nothing has been begun. -/
private theorem Move.left (h : Move s st c st' c') : c'.left = c.left ∨ c'.left.isGroup = false := by
  cases h
  case linkGraph | graphWaits => exact .inl rfl
  case nodeEntered | nodeWaits => exact .inr (by rw [Control.left, LinkNode.wait]; rfl)
  all_goals exact .inr rfl

theorem Move.shift {memory : M} (h : Move s st c st' c') :
    Shift (⟨s, memory, st, c⟩ : Machine C M) ⟨s, memory, st', c'⟩ :=
  .goes (rouses_refl s) h.extends (fun _ stuck => .inr (h.stuck stuck))
    (h.left.imp_right .inl)

/-! ### Rules -/

/-- A step in which nobody comes to wait. -/
private theorem Shift.of_quiet (rouses : Rouses Everyone m.store m'.store)
    (stack : Extends m.stack m'.stack) (stuck : m'.control.stuck? m'.stack = none)
    (left : m'.control.left.isGroup = false) : Shift m m' :=
  .goes rouses stack (fun _ h => nomatch stuck.symm.trans h) (.inr (.inl left))

/-- A step that makes a group, whose members wait for nothing but jobs. -/
private theorem Shift.of_newGroup {g : GroupId} {members : List Wait}
    (rouses : Rouses Everyone m.store m'.store) (stack : Extends m.stack m'.stack)
    (stuck : m'.control.stuck? m'.stack = none) (left : m'.control.left = .group g members)
    (new : m'.store.group g = .ofSize members.length) (simple : ∀ w ∈ members, w.isGroup = false) :
    Shift m m' :=
  .goes rouses stack (fun _ h => nomatch stuck.symm.trans h)
    (.inr (.inr ⟨g, members, left, new, simple⟩))

private theorem rouses_of_idle (same : Idle s s') : Rouses Everyone s s' :=
  rouses_of_eq same.job same.group

private theorem Propagates.rouses (way : Propagates s setters r st s' st' c') :
    Rouses Everyone s s' := by
  cases way <;> exact rouses_of_eq (by simp) (by simp)

private theorem Propagates.extends (way : Propagates s setters r st s' st' c')
    (h : Extends st₁ st) : Extends st₁ st' := by
  cases way with
  | queued => exact h
  | delivered => exact h.cons rfl rfl

private theorem Propagates.quiet (way : Propagates s setters r st s' st' c') :
    c'.stuck? st' = none ∧ c'.left = .nothing := by
  cases way <;> exact ⟨rfl, rfl⟩

/-- A step in which setters are handed over. -/
private theorem HandsOver.shift
    (way : HandsOver m.store m.stack m.control r dependencies rest s₁ st')
    (rouses : Rouses Everyone s₁ m'.store) (size : m'.store.groups.size = s₁.groups.size)
    (stack : Extends st' m'.stack) (stuck : m'.control.stuck? m'.stack = none)
    (left : m'.control.left = .nothing) : Shift m m' := by
  generalize hst : m.stack = st at way
  generalize hc : m.control = c at way
  cases way with
  | resumes =>
    refine .of_quiet rouses (fun frame below suffix => ?_) stuck (by rw [left]; rfl)
    rw [hst]
    exact (stack frame below suffix).imp_left fun inner => inner.trans (List.suffix_cons _ _)
  | starts way _ _ _ _ =>
    exact .attends (hst ▸ hc ▸ way.attends) (.settles rouses size stack stuck left)

/-- Every step does one of few things to those that wait, unless a job is polled that is being
advanced already. -/
theorem Rule.shift (h : Rule host m m')
    (idle : ∀ j, m.control = .poll j → (m.store.job j).state ≠ .running) : Shift m m' := by
  have same : ∀ {st : List (Frame C)}, Extends st st := extends_of_suffix (List.suffix_refl _)
  have pops : ∀ {frame} {st : List (Frame C)}, Extends (frame :: st) st :=
    extends_of_suffix (List.suffix_cons _ _)
  cases h
  case move h => exact h.shift
  -- Host code
  case asks => exact .of_quiet (rouses_refl _) (same.cons rfl rfl) rfl rfl
  case givesUp => exact .of_quiet (rouses_refl _) same rfl rfl
  case hookWaits signal _ _ _ | bodyWaits signal _ _ _ =>
    refine .goes ?_ pops (fun w h => .inl (Option.some.inj h).symm) (.inr (.inl rfl))
    cases signal with
    | none => exact rouses_refl _
    | some name => exact rouses_of_eq await_same.2.2.1 await_same.2.2.2.2.1
  case setterWaits | setterEnds => exact .of_quiet (rouses_of_eq (by simp) (by simp)) pops rfl rfl
  case hookOrphaned | hookFails | hookTooLate | hookEnds | bodyOrphaned | bodyEnds =>
    exact .of_quiet (rouses_of_eq (by simp) (by simp)) pops rfl rfl
  case bodyFails after _ =>
    subst after
    exact .of_quiet (rouses_of_eq (by simp) (by simp)) pops rfl rfl
  -- Requests
  case publishesSame => exact .of_quiet (rouses_of_eq (by simp) (by simp)) same rfl rfl
  case publishes _ after way =>
    subst after
    refine .of_quiet ?_ (way.extends (same.cons rfl rfl)) way.quiet.1 ?_
    · exact (rouses_of_eq (by simp) (by simp)).trans way.rouses (by simp)
    · rw [way.quiet.2]
      rfl
  case starts =>
    refine .of_quiet ?_ same rfl rfl
    exact (rouses_creates (creates_getOrCreate ..)).trans (rouses_importRecord _ _)
      (Nat.le_of_eq (creates_getOrCreate ..).same.2.1.symm)
  case defines => exact .of_quiet (rouses_define ..) same rfl rfl
  case deletes => exact .of_quiet (rouses_of_eq (by simp) (by simp)) same rfl rfl
  -- Notifications
  case drained => exact .of_quiet (rouses_of_eq (by simp) (by simp)) pops rfl rfl
  case forgets | skips => exact .of_quiet (rouses_of_eq (by simp) (by simp)) same rfl rfl
  case calls =>
    exact .of_quiet (rouses_of_eq (by simp) (by simp)) (same.cons rfl rfl) rfl rfl
  -- Jobs
  case pollRunning h _ => exact absurd h (idle _ rfl)
  case pollWaiting h own =>
    subst own
    exact .takes rfl h rfl rfl rfl
  case putsAside => exact .putsAside rfl rfl rfl rfl
  case endsJob => exact .ends rfl rfl rfl rfl
  -- Instantiating and linking a module
  case callsHook =>
    exact .of_quiet (rouses_of_eq (by simp) (by simp)) (same.cons rfl rfl) rfl rfl
  case unresolved resolved =>
    obtain ⟨rouses, size⟩ := rouses_of_resolved resolved
    exact .of_quiet (rouses.trans (rouses_of_eq (by simp) (by simp)) (Nat.le_of_eq size.symm)) pops
      rfl rfl
  case resolves resolved =>
    obtain ⟨rouses, size⟩ := rouses_of_resolved resolved
    refine .of_newGroup (rouses.trans (rouses_newGroup ..) (Nat.le_of_eq size.symm)) pops rfl rfl ?_
      fun w mem => ?_
    · rw [group_newGroup, if_pos rfl, List.length_map]
    · obtain ⟨d, _, rfl⟩ := List.mem_map.mp mem
      rfl
  case joins way h =>
    exact .attends way.attends (.next (by rw [Group.next?_map, h]; rfl) rfl rfl (.inl rfl))
  case joinWaits way h left =>
    exact .attends way.attends (.rests (by rw [Group.next?_map, h]; rfl) left rfl rfl)
  case joinOrphaned way _ _ _ =>
    exact .attends way.attends (.settles (rouses_refl _) rfl same rfl rfl)
  case joinFails way _ _ _ _ =>
    exact .attends way.attends (.settles (rouses_of_eq (by simp) (by simp)) (by simp) same rfl rfl)
  case handsOver before _ dependency _ s₁ _ _ _ _ _ way _ after =>
    have idle := idle_foldl idle_listen (before ++ [dependency]) s₁
    exact way.shift ((rouses_of_idle idle).trans after.rouses (Nat.le_of_eq idle.size_groups.symm))
      (after.still.size_groups.trans idle.size_groups) (after.extends (same.cons rfl rfl))
      after.quiet.1 after.quiet.2
  case handedOver rest s₁ _ _ way =>
    have idle := idle_foldl idle_listen rest s₁
    exact way.shift ((rouses_of_idle idle).trans (rouses_of_eq attach_same.1 attach_same.2.2.1)
      (Nat.le_of_eq idle.size_groups.symm)) (attach_same.2.2.2.1.trans idle.size_groups) same rfl
      rfl
  -- Linking a graph
  case nodeLinked =>
    refine .of_newGroup (rouses_newGroup ..) pops rfl (by rw [Control.left, LinkNode.wait]) ?_
      fun w mem => ?_
    · rw [group_newGroup, if_pos rfl, List.length_map, List.length_map]
    · simp only [List.map_map, List.mem_map, Function.comp_apply, LinkNode.wait] at mem
      obtain ⟨d, _, rfl⟩ := mem
      rfl
  case gathers way _ h =>
    exact .attends way.attends (.next (by rw [Group.next?_map, h]; rfl) rfl rfl (.inr rfl))
  case gatherWaits way _ h left =>
    exact .attends way.attends (.rests (by rw [Group.next?_map, h]; rfl) left
      (by simp [Control.stuck?, LinkNode.wait]) (by simp [Control.left, LinkNode.wait]))
  case gathered way _ _ | gatherOrphaned way _ _ =>
    exact .attends way.attends (.settles (rouses_refl _) rfl same rfl rfl)
  case gatherFails way _ _ =>
    exact .attends way.attends (.settles (rouses_of_eq (by simp) (by simp)) (by simp) same rfl rfl)
  -- Executing a graph
  case turnDeferred way _ =>
    refine .of_quiet ?_ (extends_of_suffix way.suffix) rfl rfl
    have made : ∀ (s : Store C) n (state : JobState C),
        Rouses Everyone s ((s.newGroup n).1.newJob state).1 := fun s n state =>
      (rouses_newGroup s n).trans (rouses_newJob _ state) (by simp)
    exact (made _ _ _).trans (rouses_of_eq setEvaluation_same.1 setEvaluation_same.2.2.1) (by simp)
  case turnComes way =>
    refine .of_quiet ?_ ((extends_of_suffix way.suffix).cons rfl rfl) rfl rfl
    exact (rouses_of_eq (by simp) (by simp)).trans (rouses_newJob ..) (by simp)
  case attemptWaits | visitFails =>
    exact .of_quiet (rouses_of_eq (by simp) (by simp)) pops rfl rfl
  case collects way _ h =>
    exact .attends way.attends (.next (by rw [Group.next?_map, h]; rfl) rfl rfl (.inl rfl))
  case collectWaits way _ h left =>
    exact .attends way.attends (.rests (by rw [Group.next?_map, h]; rfl) left rfl rfl)
  case collectOrphaned way _ | collectTooLate way _ _ =>
    exact .attends way.attends (.settles (rouses_refl _) rfl same rfl rfl)
  case collectFails way _ _ | collected way _ _ _ _ =>
    exact .attends way.attends (.settles (rouses_of_eq (by simp) (by simp)) (by simp) same rfl rfl)
  case bodyStarts =>
    exact .of_quiet (rouses_of_eq (by simp) (by simp)) (same.cons rfl rfl) rfl rfl
  case bodyless => exact .of_quiet (rouses_of_eq (by simp) (by simp)) same rfl rfl
  -- Giving up
  case drainAborted | setterAborted =>
    exact .of_quiet (rouses_of_eq (by simp) (by simp)) pops rfl rfl
  case jobAborted => exact .of_quiet (rouses_setJob ..) pops rfl rfl

end Shift

end Machine

/-! ### Groups and their places -/

/-- A group is at a place of a job, and what its members wait for is at the places below. -/
structure Store.Places (s : Store C) (ρ : Roles) (j : JobId) (path : List Nat) (g : GroupId)
    (members : List Wait) : Prop where
  owner : ρ.Owns j path g
  below : ∀ (i : Nat) w, members[i]? = some w →
    w.Over (fun g' => ∃ p, path ++ [i] <+: p ∧ ρ.Owns j p g') fun r => r < s.records.size

/-- What is handed to a slot comes from a place of a job. -/
def Slot.IsAt (j : JobId) (path : List Nat) (slot : Slot) : Prop :=
  slot = .work j ∧ path = [] ∨ ∃ r, slot = .linked j path r

section Places

variable {ρ : Roles} {s s₁ : Store C} {st st' : List (Frame C)} {c : Control C} {slot slot' : Slot}
  {frame : Frame C} {members : List Wait} {node : LinkNode} {work : Work C} {j : JobId}
  {path : List Nat} {g : GroupId} {k : Nat} {w : Wait} {r : RecordId}

private theorem forall_getElem?_map {α : Type} {f : α → Wait} {xs : List α} {p : Nat → Wait → Prop}
    (h : ∀ (i : Nat) x, xs[i]? = some x → p i (f x)) :
    ∀ (i : Nat) w, (xs.map f)[i]? = some w → p i w := by
  intro i w member
  rw [List.getElem?_map] at member
  obtain ⟨x, hx, rfl⟩ := Option.map_eq_some_iff.mp member
  exact h i x hx

theorem Store.Fits.lt_of_knows (store : s.Fits ρ) (h : ρ.Knows r) : r < s.records.size := by
  obtain ⟨_, inst⟩ := h
  exact (store.instantiation_eq inst).1

theorem Store.Fits.lt_of_owns (store : s.Fits ρ) (h : ρ.Owns j path g) : g < s.groups.size := by
  rw [← store.owners]
  exact (List.getElem?_eq_some_iff.mp h).1

variable (store : s.Fits ρ)
include store

theorem LinkNode.Fits.over (h : node.Fits ρ j path) : node.wait.Over
    (fun g => ∃ p, path <+: p ∧ ρ.Owns j p g) fun r => r < s.records.size := by
  induction h with
  | start _ =>
    rw [LinkNode.wait]
    exact .nothing
  | awaitLinked known =>
    rw [LinkNode.wait]
    exact .linking (store.lt_of_knows known)
  | @join path r children g owner _ ih =>
    rw [LinkNode.wait]
    refine .group ⟨path, List.prefix_refl _, owner⟩ (forall_getElem?_map fun i child hc => ?_)
    refine (ih i child hc).mono ?_
    rintro g ⟨p, below, owns⟩
    exact ⟨p, (List.prefix_append path [i]).trans below, owns⟩

private theorem LinkNode.Fits.places (h : node.Fits ρ j path) (hw : node.wait = .group g members) :
    s.Places ρ j path g members := by
  cases h with
  | start _ => simp [LinkNode.wait] at hw
  | awaitLinked _ => simp [LinkNode.wait] at hw
  | join owner below =>
    rw [LinkNode.wait] at hw
    cases hw
    exact ⟨owner, forall_getElem?_map fun i child hc => (below i child hc).over store⟩

private theorem Work.Fits.places (h : work.Fits ρ j) (hw : work.wait = .group g members) :
    s.Places ρ j [] g members := by
  cases h with
  | awaitDependencies _ owner known =>
    cases hw
    exact ⟨owner, forall_getElem?_map fun _ d hd =>
      .instantiation (store.lt_of_knows (known d (List.mem_of_getElem? hd)))⟩
  | linkGraph _ fits => exact fits.places store hw
  | executeAfter _ owner members =>
    cases hw
    exact ⟨owner, forall_getElem?_map fun _ _ _ => .job⟩
  | _ => exact nomatch hw

theorem Work.Fits.over (h : work.Fits ρ j) : work.wait.Over
    (fun g => ∃ p, ρ.Owns j p g) fun r => r < s.records.size := by
  cases h with
  | instantiate _ | runBody _ => exact .nothing
  | awaitHook _ | awaitBody _ => exact .host
  | link is => exact .instantiation (store.links _ _ is).1
  | awaitDependencies _ owner known =>
    exact .group ⟨[], owner⟩ (forall_getElem?_map fun _ d hd =>
      .instantiation (store.lt_of_knows (known d (List.mem_of_getElem? hd))))
  | linkGraph _ fits => exact (fits.over store).mono fun g ⟨p, _, owns⟩ => ⟨p, owns⟩
  | awaitEvaluation _ _ => exact .job
  | executeAfter _ owner members =>
    exact .group ⟨[], owner⟩ (forall_getElem?_map fun _ _ _ => .job)

theorem Frame.Fits.places (h : frame.Fits ρ slot slot')
    (attempt : frame.attempt? = some (members, g, k)) : ∃ j path, s.Places ρ j path g members ∧
      slot'.IsAt j path ∧ ((∃ i, slot = .polled i) ∨ ∃ r, slot = .linked j (path ++ [k]) r) := by
  cases h with
  | joining _ owner known _ _ =>
    cases attempt
    exact ⟨_, [], ⟨owner, forall_getElem?_map fun _ d hd =>
      .instantiation (store.lt_of_knows (known d (List.mem_of_getElem? hd)))⟩, .inl ⟨rfl, rfl⟩,
      .inl ⟨_, rfl⟩⟩
  | @linkingChildren _ path r _ _ _ child owner below _ =>
    cases attempt
    exact ⟨_, path, ⟨owner, forall_getElem?_map fun i child hc => (below i child hc).over store⟩,
      .inr ⟨r, rfl⟩, .inr ⟨child.module, rfl⟩⟩
  | executingAfter _ owner _ _ =>
    cases attempt
    exact ⟨_, [], ⟨owner, forall_getElem?_map fun _ _ _ => .job⟩, .inl ⟨rfl, rfl⟩, .inl ⟨_, rfl⟩⟩
  | _ => exact nomatch attempt

/-- What an activity waits for that has a job advanced is that job. -/
theorem Frame.Fits.wait (h : frame.Fits ρ slot slot') (hw : frame.wait? = some w) :
    (∃ j, slot = .polled j ∧ w.job? s = some j) ∧ w.isGroup = false ∧
      w.Over (fun _ => False) fun r => r < s.records.size := by
  cases h with
  | joining _ _ known member inst =>
    cases hw
    rw [member]
    have eq := store.instantiation_eq inst
    exact ⟨⟨_, rfl, congrArg some eq.2⟩, rfl, .instantiation eq.1⟩
  | executingAfter _ _ _ member =>
    cases hw
    rw [member]
    exact ⟨⟨_, rfl, rfl⟩, rfl, .job⟩
  | executing _ | evaluating _ _ =>
    cases hw
    exact ⟨⟨_, rfl, rfl⟩, rfl, .job⟩
  | linking _ inst =>
    cases hw
    have eq := store.instantiation_eq inst
    exact ⟨⟨_, rfl, congrArg some eq.2⟩, rfl, .instantiation eq.1⟩
  | linkingNode links =>
    cases hw
    have eq := store.linking_eq links
    exact ⟨⟨_, rfl, congrArg some eq.2⟩, rfl, .linking eq.1⟩
  | _ => exact nomatch hw

/-- What is left to do by an activity is at the place of the activity. -/
theorem Control.Fits.left_places (h : c.Fits ρ s st) (hw : c.left = .group g members) :
    ∃ slot j path, Awaits ρ slot st ∧ s.Places ρ j path g members ∧ slot.IsAt j path := by
  unfold Control.left at hw
  split at hw
  · obtain ⟨j, awaits, fits⟩ := h
    exact ⟨_, j, [], awaits, fits.places store hw, .inl ⟨rfl, rfl⟩⟩
  · obtain ⟨j, awaits, fits, _⟩ := h
    exact ⟨_, j, [], awaits, fits.places store hw, .inl ⟨rfl, rfl⟩⟩
  · obtain ⟨j, path, awaits, fits⟩ := h
    exact ⟨_, j, path, awaits, fits.places store hw, .inr ⟨_, rfl⟩⟩
  · obtain ⟨j, path, r, awaits, fits⟩ := h
    exact ⟨_, j, path, awaits, (fits _ rfl).2.1.places store hw, .inr ⟨_, rfl⟩⟩
  · exact nomatch hw

/-- What is waited for within an attempt is at the place of the member that is being advanced. -/
theorem Control.Fits.stuck_over (h : c.Fits ρ s (frame :: st))
    (attempt : frame.attempt? = some (members, g, k)) (hw : c.stuck? (frame :: st) = some w)
    (places : s.Places ρ j path g members) :
    w.Over (fun g' => ∃ p, path ++ [k] <+: p ∧ ρ.Owns j p g') fun r => r < s.records.size := by
  unfold Control.stuck? at hw
  split at hw
  · obtain ⟨_, _ | ⟨fits, _⟩, _⟩ := h
    cases fits with
    | advancing => exact nomatch attempt
  · obtain ⟨j', path', r, awaits, node⟩ := h
    cases hw
    generalize hslot : Slot.linked j' path' r = slot at awaits
    rcases awaits with _ | ⟨fits, _⟩
    obtain ⟨j₀, path₀, places₀, _, at_⟩ := fits.places store attempt
    obtain ⟨rfl, rfl⟩ : j₀ = j ∧ path₀ = path := by
      simpa using Option.some.inj (places₀.owner.symm.trans places.owner)
    rcases at_ with ⟨i, at_⟩ | ⟨r', at_⟩
    · exact nomatch hslot.trans at_
    · cases hslot.trans at_
      exact (node _ rfl).2.1.over store
  · obtain ⟨_, _ | ⟨fits, _⟩, _⟩ := h
    exact (fits.wait store hw).2.2.mono fun _ => False.elim
  · exact nomatch hw

/-- All groups that are waited for are known. -/
theorem Control.Fits.over (h : c.Fits ρ s st) :
    (∀ w, c.stuck? st = some w → w.Over (fun g => g < s.groups.size) fun r => r < s.records.size) ∧
      c.left.Over (fun g => g < s.groups.size) fun r => r < s.records.size := by
  have work : ∀ {w : Work C} {j}, w.Fits ρ j →
      w.wait.Over (fun g => g < s.groups.size) fun r => r < s.records.size := fun fits =>
    (fits.over store).mono fun _ ⟨_, owns⟩ => store.lt_of_owns owns
  have node : ∀ {node : LinkNode} {j path}, node.Fits ρ j path →
      node.wait.Over (fun g => g < s.groups.size) fun r => r < s.records.size := fun fits =>
    (fits.over store).mono fun _ ⟨_, _, owns⟩ => store.lt_of_owns owns
  constructor
  · intro w hw
    unfold Control.stuck? at hw
    split at hw
    · cases hw
      obtain ⟨_, _, fits, _⟩ := h
      exact work fits
    · cases hw
      obtain ⟨_, _, _, _, fits⟩ := h
      exact node (fits _ rfl).2.1
    · obtain ⟨_, _ | ⟨fits, _⟩, _⟩ := h
      exact (fits.wait store hw).2.2.mono fun _ => False.elim
    · exact nomatch hw
  · unfold Control.left
    split
    · obtain ⟨_, _, fits⟩ := h
      exact work fits
    · obtain ⟨_, _, fits, _⟩ := h
      exact work fits
    · obtain ⟨_, _, _, fits⟩ := h
      exact node fits
    · obtain ⟨_, _, _, _, fits⟩ := h
      exact node (fits _ rfl).2.1
    · exact .nothing

/-- An attempt at a group is made at the place of the group. -/
theorem Machine.Attends.places (way : Machine.Attends s st c members g s₁ st')
    (h : c.Fits ρ s st) :
    ∃ slot j path, Awaits ρ slot st' ∧ s.Places ρ j path g members ∧ slot.IsAt j path := by
  cases way with
  | starts _ left => exact h.left_places store left
  | ends attempt =>
    obtain ⟨_, _ | ⟨fits, below⟩⟩ := h.awaits
    obtain ⟨j, path, places, place, _⟩ := fits.places store attempt
    exact ⟨_, j, path, below, places, place⟩
  | @waits frame _ _ members _ k w attempt stuck _ =>
    obtain ⟨_, _ | ⟨fits, below⟩⟩ := h.awaits
    obtain ⟨j, path, places, place, _⟩ := fits.places store attempt
    refine ⟨_, j, path, below, ⟨places.owner, fun i w' member => ?_⟩, place⟩
    by_cases same : i = k
    · subst same
      have lt : i < members.length := by simpa using (List.getElem?_eq_some_iff.mp member).1
      rw [List.getElem?_set_self lt] at member
      cases member
      exact h.stuck_over store attempt stuck places
    · rw [List.getElem?_set_ne (Ne.symm same)] at member
      exact places.below i w' member

end Places

/-! ### Attempts apart from each other -/

/-- A group is at the place that a slot is handed something from, or below it. -/
def Slot.Within (ρ : Roles) (g : GroupId) : Slot → Prop
  | .linked j path _ => ∃ p, path <+: p ∧ ρ.Owns j p g
  | .work j | .visited j _ => ∃ p, ρ.Owns j p g
  | _ => False

/-- A group belongs to a job that no activity is advancing. -/
def Machine.Elsewhere (ρ : Roles) (st : List (Frame C)) (g : GroupId) : Prop :=
  ∃ j p, ρ.Owns j p g ∧ j ∉ Machine.advanced st

section Apart

variable {ρ : Roles} {s s₁ : Store C} {st st' : List (Frame C)} {c : Control C} {slot slot' : Slot}
  {frame : Frame C} {members : List Wait} {j : JobId} {path : List Nat} {g : GroupId}

theorem Slot.IsAt.within (h : slot.IsAt j path) (owner : ρ.Owns j path g) : slot.Within ρ g := by
  rcases h with ⟨rfl, rfl⟩ | ⟨r, rfl⟩
  · exact ⟨[], owner⟩
  · exact ⟨path, List.prefix_refl _, owner⟩

/-- What is at a place comes from a job that is being advanced. -/
theorem Slot.IsAt.mem_advanced (h : slot.IsAt j path) (awaits : Awaits ρ slot st) :
    j ∈ Machine.advanced st := by
  rcases h with ⟨rfl, _⟩ | ⟨r, rfl⟩
  · obtain ⟨st', rfl, _⟩ := awaits.of_work
    exact List.mem_cons_self
  · obtain ⟨rest, eq⟩ := awaits.advanced_of_linked
    rw [eq]
    exact List.mem_cons_self

/-- What is handed on from within an activity comes from within what the activity is handed. -/
private theorem Frame.Fits.within (h : frame.Fits ρ slot slot') (below : Awaits ρ slot' st)
    (nodup : (Machine.advanced (frame :: st)).Nodup) (within : slot.Within ρ g) :
    slot'.Within ρ g ∨ Machine.Elsewhere ρ st g := by
  cases h with
  | advancing =>
    obtain ⟨p, owns⟩ := within
    exact .inr ⟨_, p, owns, (List.nodup_cons.mp nodup).1⟩
  | linkingGraph _ =>
    obtain ⟨p, _, owns⟩ := within
    exact .inl ⟨p, owns⟩
  | linkingChildren _ _ _ =>
    obtain ⟨p, pre, owns⟩ := within
    exact .inl ⟨p, (List.prefix_append _ _).trans pre, owns⟩
  | executingGraph _ | visiting _ _ => exact .inl within
  | _ => exact within.elim

/-- An attempt that is made within other activities, or by none of them, is at no group that they
make an attempt at, and at none that the other members of such a group wait for. -/
theorem Awaits.apart (store : s.Fits ρ) (h : Awaits ρ slot st)
    (nodup : (Machine.advanced st).Nodup) (out : slot.Within ρ g ∨ Machine.Elsewhere ρ st g)
    {below : List (Frame C)} {g' : GroupId} {k : Nat} (suffix : frame :: below <:+ st)
    (attempt : frame.attempt? = some (members, g', k)) :
    g' ≠ g ∧ ∀ (i : Nat) w, members[i]? = some w → i ≠ k →
      w.Over (fun g' => g' < s.groups.size ∧ g' ≠ g) fun r => r < s.records.size := by
  induction h with
  | nil => exact absurd (List.eq_nil_of_suffix_nil suffix) (List.cons_ne_nil _ _)
  | @cons slot slot' frame' st' fits awaits ih =>
    rcases List.suffix_cons_iff.mp suffix with same | inner
    · cases same
      obtain ⟨j, path, places, place, origin⟩ := fits.places store attempt
      have plain : Machine.advanced (frame :: below) = Machine.advanced below := by
        cases frame <;> first | rfl | cases attempt
      have ne : ∀ {p g''}, ρ.Owns j p g'' → ¬ path ++ [k] <+: p → g'' ≠ g := by
        rintro p _ owns apart rfl
        rcases out with within | ⟨j', p', owns', out⟩
        · rcases origin with ⟨i, rfl⟩ | ⟨r, rfl⟩
          · exact within
          · obtain ⟨p', pre', owns'⟩ := within
            cases Option.some.inj (owns.symm.trans owns')
            exact apart pre'
        · cases Option.some.inj (owns.symm.trans owns')
          rw [plain] at out
          exact out (place.mem_advanced awaits)
      refine ⟨ne places.owner Machine.not_prefix_self, fun i w member other =>
        (places.below i w member).mono fun g'' ⟨p, pre, owns⟩ => ⟨store.lt_of_owns owns, ?_⟩⟩
      exact ne owns (Machine.not_prefix_of_ne other pre)
    · have nodup' := nodup.sublist (Machine.advanced_suffix (List.suffix_cons frame' st')).sublist
      refine ih nodup' ?_ inner
      rcases out with within | ⟨j, p, owns, out⟩
      · exact fits.within awaits nodup within
      · exact .inr ⟨j, p, owns, fun mem =>
          out ((Machine.advanced_suffix (List.suffix_cons frame' st')).subset mem)⟩

private theorem Machine.ear_cons_getD :
    ear s (frame :: st) = (frame.listener? s).getD (ear s st) := by
  unfold ear
  rw [List.findSome?_cons]
  cases frame.listener? s <;> rfl

/-- Who is told is the job that is being advanced, or a member of a group of many. -/
theorem Machine.ear_cases (s : Store C) (st : List (Frame C)) : ear s st = .nobody ∨
    (∃ j below, .advancing j :: below <:+ st ∧ ear s st = .job j) ∨
    ∃ frame below members g k, frame :: below <:+ st ∧
      frame.attempt? = some (members, g, k) ∧ ear s st = .member g k := by
  induction st with
  | nil => exact .inl rfl
  | cons frame st ih =>
    rw [ear_cons_getD]
    cases listens : frame.listener? s with
    | none =>
      exact ih.imp_right (Or.imp
        (fun ⟨j, below, suffix, eq⟩ => ⟨j, below, suffix.trans (List.suffix_cons frame st), eq⟩)
        fun ⟨frame', below, members, g, k, suffix, attempt, eq⟩ =>
          ⟨frame', below, members, g, k, suffix.trans (List.suffix_cons frame st), attempt, eq⟩)
    | some l =>
      cases attempt : frame.attempt? with
      | some x =>
        obtain ⟨members, g, k⟩ := x
        rw [Frame.listener?_of_attempt? attempt] at listens
        split_ifs at listens
        cases listens
        exact .inr (.inr ⟨frame, st, members, g, k, List.suffix_refl _, attempt, rfl⟩)
      | none =>
        cases frame with
        | advancing j =>
          cases listens
          exact .inr (.inl ⟨j, st, List.suffix_refl _, rfl⟩)
        | executing =>
          cases listens
          exact .inl rfl
        | joining | linkingChildren | executingAfter => exact nomatch attempt
        | _ => exact nomatch listens

/-- Who is told is the same as long as it is for each activity. -/
theorem Machine.ear_eq
    (h : ∀ frame below members g k, frame :: below <:+ st →
      frame.attempt? = some (members, g, k) → (s₁.group g).size = (s.group g).size) :
    ear s₁ st = ear s st := by
  induction st with
  | nil => rfl
  | cons frame st ih =>
    have same := ih fun frame' below members g k suffix =>
      h frame' below members g k (suffix.trans (List.suffix_cons frame st))
    have own : frame.listener? s₁ = frame.listener? s := by
      cases attempt : frame.attempt? with
      | some x =>
        obtain ⟨members, g, k⟩ := x
        rw [Frame.listener?_of_attempt? attempt, Frame.listener?_of_attempt? attempt, Group.isMany,
          Group.isMany, h frame st members g k (List.suffix_refl _) attempt]
      | none => cases frame <;> first | rfl | cases attempt
    rw [ear_cons_getD, ear_cons_getD, own, same]

end Apart

end ModuleSystem.Loader
