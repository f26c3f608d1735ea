import ModuleSystem.Proofs.Loader.Telling
import ModuleSystem.Proofs.Loader.Changes

/-!
# What is waited for

Whoever has to wait does so for host code, for a job, or for a group of such things (`Wait`). It is
asleep if a job or a member of the group is going to tell it (`Wait.Asleep`). A listener is alert to
what it waits for if it is asleep or has been told already (`Wait.Alert`), and it stays so while
others are told: it may be told in its turn.

A group of many is advanced by its due members only. So each member that is left must be due or
asleep, at all depths of a walk that links a graph (`Wait.Watched`).

## Main definitions

* `Wait` : what is waited for.
* `Wait.Asleep`, `Wait.Alert`, `Wait.Watched` : nobody waits without being told in the end.
* `Machine.Attempt` : an attempt at a group is being made.

## Main results

* `Wait.Alert.pass`, `Wait.Watched.pass` : listeners stay alert when something else happens.
* `Machine.Attempt.alert` : an attempt that gets no further leaves its caller alert.
-/

namespace ModuleSystem.Loader

variable {C M : Type}

/-- What has to go on before something else can. -/
inductive Wait where
  /-- Nothing has been begun. -/
  | nothing
  /-- Host code has to go on. -/
  | host
  | instantiation (module : RecordId)
  | linking (module : RecordId)
  | job (job : JobId)
  | group (group : GroupId) (members : List Wait)

/-- What a walk that links a graph waits for at a place. -/
def LinkNode.wait : LinkNode → Wait
  | start _ => .nothing
  | awaitLinked r => .linking r
  | join _ children g => .group g (children.map LinkNode.wait)

/-- What is waited for by work that is left of a job. -/
def Work.wait : Work C → Wait
  | instantiate _ | runBody .. => .nothing
  | awaitHook .. | awaitBody .. => .host
  | link r => .instantiation r
  | awaitDependencies _ dependencies g =>
    .group g (dependencies.map fun d => .instantiation d.module)
  | linkGraph _ node _ => node.wait
  | awaitEvaluation j => .job j
  | executeAfter _ jobs g => .group g (jobs.map .job)

namespace Wait

/-- The job that is waited for. -/
def job? (s : Store C) : Wait → Option JobId
  | instantiation r => some (s.record r).instantiation
  | linking r => some (s.record r).linking
  | job j => some j
  | _ => none

/-- Whether a group is waited for. -/
def isGroup : Wait → Bool
  | group .. => true
  | _ => false

/-- A listener is going to be told when it can go on. -/
inductive Asleep (s : Store C) : Listener → Wait → Prop
  | host {l} : Asleep s l .host
  | job {l w j} (h : w.job? s = some j) (mem : l ∈ (s.job j).active) : Asleep s l w
  | few {l g members w} {k : Nat} (few : (s.group g).isMany = false) (member : members[k]? = some w)
      (left : k ∈ (s.group g).left) (h : Asleep s l w) : Asleep s l (.group g members)
  | many {l g members w} {k : Nat} (many : (s.group g).isMany = true)
      (caller : (s.group g).caller = l) (member : members[k]? = some w)
      (left : k ∈ (s.group g).left) (idle : k ∉ (s.group g).due) (h : Asleep s (.member g k) w) :
      Asleep s l (.group g members)

/-- A listener has been told, or is going to be. -/
def Alert (s : Store C) (l : Listener) (w : Wait) : Prop :=
  s.Heard l ∨ w.Asleep s l

/-- Whoever waits for a job waits for whatever stands for it. -/
theorem Alert.of_job? {s : Store C} {l : Listener} {w : Wait} {j : JobId}
    (h : (Wait.job j).Alert s l) (found : w.job? s = some j) : w.Alert s l := by
  refine h.imp_right fun asleep => ?_
  cases asleep with
  | job same mem =>
    cases same
    exact .job found mem

/-- All members of groups are known, and those of groups of many are alert. -/
inductive Watched (s : Store C) : Wait → Prop
  | simple {w} (h : w.isGroup = false) : Watched s w
  | group {g members} (size : (s.group g).size = members.length)
      (alert : (s.group g).isMany = true → ∀ (k : Nat) w, members[k]? = some w →
        k ∈ (s.group g).left → Alert s (.member g k) w)
      (inner : ∀ (k : Nat) w, members[k]? = some w → k ∈ (s.group g).left → Watched s w) :
      Watched s (.group g members)

/-- All groups that are waited for are of some sort, and so are the modules. -/
inductive Over (P : GroupId → Prop) (R : RecordId → Prop) : Wait → Prop
  | nothing : Over P R .nothing
  | host : Over P R .host
  | instantiation {r} (h : R r) : Over P R (.instantiation r)
  | linking {r} (h : R r) : Over P R (.linking r)
  | job {j} : Over P R (.job j)
  | group {g members} (h : P g) (inner : ∀ (k : Nat) w, members[k]? = some w → Over P R w) :
      Over P R (.group g members)

end Wait

namespace Store

/-- Between two stores modules keep their jobs. -/
def KeepsJobs (R : RecordId → Prop) (s s' : Store C) : Prop :=
  ∀ r, R r → (s'.record r).instantiation = (s.record r).instantiation ∧
    (s'.record r).linking = (s.record r).linking

/-- From one store to another, first listeners have only been told, and then nothing has happened
that calm ones are concerned with. -/
structure Passes (calm : Listener → Prop) (s s' : Store C) : Prop where
  told : ∃ s₁, Rouses Everyone s s₁ ∧ Rouses calm s₁ s' ∧ s.groups.size ≤ s₁.groups.size ∧
    s₁.record = s.record
  jobs : KeepsJobs (fun r => r < s.records.size) s s'

section Passes

variable {calm : Listener → Prop} {s s' : Store C} {g : GroupId} {l : Listener}

theorem Passes.heard (h : Passes calm s s') (quiet : calm l) (heard : s.Heard l) : s'.Heard l := by
  obtain ⟨_, told, rest, _⟩ := h.told
  exact rest.heard l quiet (told.heard l trivial heard)

theorem Passes.left (h : Passes calm s s') (known : g < s.groups.size)
    (quiet : ∀ i, calm (.member g i)) : (s'.group g).left = (s.group g).left := by
  obtain ⟨_, told, rest, size, _⟩ := h.told
  exact (rest.left g (Nat.lt_of_lt_of_le known size) quiet).trans
    (told.left g known fun _ => trivial)

/-- Members that are left and due stay so. -/
theorem Passes.due {i : Nat} (h : Passes calm s s') (known : g < s.groups.size)
    (quiet : ∀ i, calm (.member g i)) (left : i ∈ (s.group g).left) (due : i ∈ (s.group g).due) :
    i ∈ (s'.group g).due :=
  h.heard (l := .member g i) (quiet i) (fun _ => due) ((h.left known quiet).symm ▸ left)

end Passes

end Store

namespace Wait

open Store

section Rouses

variable {calm : Listener → Prop} {s s' : Store C} {l : Listener} {w : Wait}
  {P Q : GroupId → Prop} {R : RecordId → Prop}

theorem Over.imp {R' : RecordId → Prop} (h : w.Over P R) (le : ∀ g, P g → Q g)
    (le' : ∀ r, R r → R' r) : w.Over Q R' := by
  induction h with
  | nothing => exact .nothing
  | host => exact .host
  | instantiation h => exact .instantiation (le' _ h)
  | linking h => exact .linking (le' _ h)
  | job => exact .job
  | group h _ ih => exact .group (le _ h) ih

theorem Over.mono (h : w.Over P R) (le : ∀ g, P g → Q g) : w.Over Q R :=
  h.imp le fun _ => id

theorem Over.job?_eq (h : w.Over P R) (jobs : KeepsJobs R s s') : w.job? s' = w.job? s := by
  cases h with
  | instantiation h => exact congrArg some (jobs _ h).1
  | linking h => exact congrArg some (jobs _ h).2
  | _ => rfl

private theorem isMany_eq {x y : Group} (size : x.size = y.size) : x.isMany = y.isMany := by
  rw [Group.isMany, Group.isMany, size]

/-- A listener that is asleep stays so, or it is told. -/
theorem Asleep.rouses (h : w.Asleep s l) (rouses : Rouses calm s s')
    (scope : w.Over (fun g => g < s.groups.size ∧ ∀ i, calm (.member g i)) R)
    (jobs : KeepsJobs R s s') : w.Alert s' l := by
  induction h with
  | host => exact .inr .host
  | job found mem =>
    rcases rouses.listens _ _ mem with mem | heard
    · exact .inr (.job ((scope.job?_eq jobs).trans found) mem)
    · exact .inl heard
  | @few _ g _ _ _ few member left _ ih =>
    cases scope with
    | group known inner =>
      refine (ih (inner _ _ member)).imp_right (.few ?_ member ?_)
      · rw [isMany_eq (rouses.size g known.1), few]
      · rwa [rouses.left g known.1 known.2]
  | @many l g _ _ k many caller member left idle _ ih =>
    cases scope with
    | group known inner =>
      have kept := rouses.left g known.1 known.2
      rcases rouses.callers g known.1 known.2 with ⟨due, same⟩ | heard
      · rcases ih (inner _ _ member) with heard | asleep
        · exact absurd (due ▸ heard (kept.symm ▸ left)) idle
        · refine .inr (.many ?_ (same.trans caller) member (kept.symm ▸ left) (due.symm ▸ idle)
            asleep)
          rw [isMany_eq (rouses.size g known.1), many]
      · rw [caller] at heard
        exact .inl heard

theorem Alert.rouses (h : w.Alert s l) (quiet : calm l) (rouses : Rouses calm s s')
    (scope : w.Over (fun g => g < s.groups.size ∧ ∀ i, calm (.member g i)) R)
    (jobs : KeepsJobs R s s') : w.Alert s' l := by
  rcases h with heard | asleep
  · exact .inl (rouses.heard l quiet heard)
  · exact asleep.rouses rouses scope jobs

theorem Watched.rouses (h : w.Watched s) (rouses : Rouses calm s s')
    (scope : w.Over (fun g => g < s.groups.size ∧ ∀ i, calm (.member g i)) R)
    (jobs : KeepsJobs R s s') : w.Watched s' := by
  induction h with
  | simple h => exact .simple h
  | @group g _ size alert _ ih =>
    cases scope with
    | group known inner =>
      have left := rouses.left g known.1 known.2
      refine .group ((rouses.size g known.1).trans size) (fun many k w member mem => ?_)
        fun k w member mem => ?_
      · rw [isMany_eq (rouses.size g known.1)] at many
        rw [left] at mem
        exact (alert many k w member mem).rouses (known.2 k) rouses (inner k w member) jobs
      · rw [left] at mem
        exact ih k w member mem (inner k w member)

private theorem Over.everyone
    (h : w.Over (fun g => g < s.groups.size ∧ ∀ i, calm (.member g i)) R) :
    w.Over (fun g => g < s.groups.size ∧ ∀ i, Everyone (.member g i)) R :=
  h.mono fun _ h => ⟨h.1, fun _ => trivial⟩

/-- A listener stays alert to what it waits for, whatever else happens. -/
theorem Alert.pass (h : w.Alert s l) (quiet : calm l) (passes : Passes calm s s')
    (scope : w.Over (fun g => g < s.groups.size ∧ ∀ i, calm (.member g i)) fun r =>
      r < s.records.size) : w.Alert s' l := by
  obtain ⟨s₁, told, rest, size, record⟩ := passes.told
  refine (h.rouses trivial told scope.everyone fun r _ => ?_).rouses quiet rest
    (scope.mono fun g hg => ⟨Nat.lt_of_lt_of_le hg.1 size, hg.2⟩) fun r hr => ?_
  · rw [record]
    exact ⟨rfl, rfl⟩
  · rw [record]
    exact passes.jobs r hr

theorem Watched.pass (h : w.Watched s) (passes : Passes calm s s')
    (scope : w.Over (fun g => g < s.groups.size ∧ ∀ i, calm (.member g i)) fun r =>
      r < s.records.size) : w.Watched s' := by
  obtain ⟨s₁, told, rest, size, record⟩ := passes.told
  refine (h.rouses told scope.everyone fun r _ => ?_).rouses rest
    (scope.mono fun g hg => ⟨Nat.lt_of_lt_of_le hg.1 size, hg.2⟩) fun r hr => ?_
  · rw [record]
    exact ⟨rfl, rfl⟩
  · rw [record]
    exact passes.jobs r hr

end Rouses

end Wait

namespace Machine

open Store

/-! ### Attempts at groups -/

/-- Who is told when a member of a group can go on. -/
def voice (s : Store C) (st : List (Frame C)) (g : GroupId) (k : Nat) : Listener :=
  if (s.group g).isMany then .member g k else ear s st

/-- An attempt at a group is being made for the activities in `st`. All members that are left and
not due are alert, but for those that are being advanced; and the caller is known, or has been
told. -/
structure Attempt (s : Store C) (st : List (Frame C)) (members : List Wait) (g : GroupId)
    (current : Nat → Prop) : Prop where
  size : (s.group g).size = members.length
  caller : (s.group g).isMany = true → (s.group g).caller = ear s st ∨ s.Heard (ear s st)
  others : ∀ (k : Nat) w, members[k]? = some w → k ∈ (s.group g).left → ¬ current k →
    k ∉ (s.group g).due → w.Alert s (voice s st g k)
  inner : ∀ (k : Nat) w, members[k]? = some w → k ∈ (s.group g).left → ¬ current k → w.Watched s

section Attempts

variable {calm : Listener → Prop} {s s' : Store C} {st : List (Frame C)} {members : List Wait}
  {g : GroupId} {k : Nat} {current : Nat → Prop} {w : Wait} {R : RecordId → Prop}

/-- When an attempt gets no further, some member is left that is not due, unless the attempt is
broken off. -/
theorem exists_idle {α : Type} {x : Group} {xs : List α} (orderly : IsOrderly x)
    (size : x.size = xs.length) (next : x.next? xs = none) (left : x.isOver = false)
    (goes : x.isResting = false) : ∃ (k : Nat) (w : α), xs[k]? = some w ∧ k ∈ x.left ∧
      k ∉ x.due := by
  have bound : ∀ k ∈ x.left, k < xs.length := fun k mem => size ▸ orderly.lt_of_left mem
  have due : x.due = [] := by
    cases hd : x.due with
    | nil => rfl
    | cons i due =>
      have lt := bound i (orderly.sub (hd ▸ List.mem_cons_self))
      simp [Group.next?, hd, goes, lt] at next
  obtain ⟨k, mem⟩ : ∃ k, k ∈ x.left := by
    cases hl : x.left with
    | nil => simp [Group.isOver, hl] at left
    | cons k _ => exact ⟨k, List.mem_cons_self⟩
  exact ⟨k, _, List.getElem?_eq_getElem (bound k mem), mem, by rw [due]; exact List.not_mem_nil⟩

/-- When the members of a group are advanced and no progress can be made with them, then its caller
is alert: some member is going to tell it, or has told it. -/
theorem Attempt.alert (h : Attempt s st members g fun _ => False)
    (rests : (s.group g).isResting = true → s.Heard (ear s st))
    (orderly : IsOrderly (s.group g)) (next : (s.group g).next? members = none)
    (left : (s.group g).isOver = false) : (Wait.group g members).Alert s (ear s st) := by
  cases resting : (s.group g).isResting with
  | true => exact .inl (rests resting)
  | false =>
    obtain ⟨k, w, member, mem, idle⟩ := exists_idle orderly h.size next left resting
    have alert := h.others k w member mem id idle
    unfold voice at alert
    split_ifs at alert with many
    · rcases alert with heard | asleep
      · exact absurd (heard mem) idle
      · exact (h.caller many).symm.imp_right fun caller =>
          .many many caller member mem idle asleep
    · exact alert.imp_right (.few (by simpa using many) member mem)

/-- An attempt that has been put aside is watched. -/
theorem Attempt.watched (h : Attempt s st members g fun _ => False) :
    (Wait.group g members).Watched s := by
  refine .group h.size (fun many k w member mem => ?_) fun k w member mem =>
    h.inner k w member mem id
  by_cases due : k ∈ (s.group g).due
  · exact .inl fun _ => due
  · have alert := h.others k w member mem id due
    rwa [voice, if_pos many] at alert

/-- An attempt goes on as it was when something else happens. -/
theorem Attempt.pass (h : Attempt s st members g current) (passes : Passes calm s s')
    (own : g < s.groups.size ∧ ∀ i, calm (.member g i)) (quiet : calm (ear s st))
    (ears : ear s' st = ear s st)
    (scope : ∀ (k : Nat) w, members[k]? = some w → ¬ current k →
      w.Over (fun g => g < s.groups.size ∧ ∀ i, calm (.member g i)) fun r => r < s.records.size) :
    Attempt s' st members g current := by
  obtain ⟨s₁, told, rest, size, _⟩ := passes.told
  have known := Nat.lt_of_lt_of_le own.1 size
  have left := passes.left own.1 own.2
  have many : (s'.group g).isMany = (s.group g).isMany := by
    rw [Group.isMany, Group.isMany, rest.size g known, told.size g own.1]
  have voices : ∀ k, voice s' st g k = voice s st g k := fun k => by
    rw [voice, voice, many, ears]
  refine ⟨((rest.size g known).trans (told.size g own.1)).trans h.size, fun isMany => ?_,
    fun k w member mem ne idle => ?_, fun k w member mem ne => ?_⟩
  · rw [many] at isMany
    rw [ears]
    rcases h.caller isMany with caller | told'
    · rcases told.callers g own.1 fun _ => trivial with ⟨_, same⟩ | heard'
      · rcases rest.callers g known own.2 with ⟨_, same'⟩ | heard'
        · exact .inl (same'.trans (same.trans caller))
        · rw [same, caller] at heard'
          exact .inr heard'
      · rw [caller] at heard'
        exact .inr (rest.heard _ quiet heard')
    · exact .inr (passes.heard quiet told')
  · rw [left] at mem
    have idle' : k ∉ (s.group g).due := fun due => idle (passes.due own.1 own.2 mem due)
    rw [voices]
    refine (h.others k w member mem ne idle').pass ?_ passes (scope k w member ne)
    unfold voice
    split_ifs
    · exact own.2 k
    · exact quiet
  · rw [left] at mem
    exact (h.inner k w member mem ne).pass passes (scope k w member ne)

/-- The listeners that a group and its members are no concern of. -/
abbrev Beside (g : GroupId) : Listener → Prop := fun l => ∀ i, l ≠ .member g i

private theorem ear_setGroup {x : Group} (size : x.size = (s.group g).size) :
    ear (s.setGroup g x) st = ear s st := by
  refine ear_congr fun g' => ?_
  rw [group_setGroup]
  split_ifs with h
  · rw [h.1, Group.isMany, Group.isMany, size]
  · rfl

/-- A group is changed in that fewer of its members may be left or due. -/
private theorem Attempt.setGroup {x : Group} {current' : Nat → Prop}
    (size : x.size = (s.group g).size) (all : (s.group g).size = members.length)
    (known : g < s.groups.size)
    (caller : x.isMany = true → x.caller = ear s st ∨ s.Heard (ear s st))
    (quiet : Beside g (ear s st))
    (others : ∀ (k : Nat) w, members[k]? = some w → k ∈ x.left → ¬ current' k → k ∉ x.due →
      k ∈ (s.group g).left ∧ k ∉ (s.group g).due ∧ w.Alert s (voice s st g k))
    (inner : ∀ (k : Nat) w, members[k]? = some w → k ∈ x.left → ¬ current' k → w.Watched s)
    (scope : ∀ (k : Nat) w, members[k]? = some w → k ∈ x.left → ¬ current' k →
      w.Over (fun g' => g' < s.groups.size ∧ g' ≠ g) R) :
    Attempt (s.setGroup g x) st members g current' := by
  have same : (s.setGroup g x).group g = x := by rw [group_setGroup, if_pos ⟨rfl, known⟩]
  have rouses := rouses_setGroup (s := s) (g := g) size
  have jobs : KeepsJobs R s (s.setGroup g x) := fun _ _ => ⟨rfl, rfl⟩
  have scope' : ∀ (k : Nat) w, members[k]? = some w → k ∈ x.left → ¬ current' k →
      w.Over (fun g' => g' < s.groups.size ∧ ∀ i, Beside g (.member g' i)) R :=
    fun k w member mem ne => (scope k w member mem ne).mono fun g' h =>
      ⟨h.1, fun i k same => h.2 (Listener.member.inj same).1⟩
  have voices : ∀ k, voice (s.setGroup g x) st g k = voice s st g k := fun k => by
    rw [voice, voice, same, ear_setGroup size, Group.isMany, Group.isMany, size]
  refine ⟨by rw [same, size, all], fun many => ?_, fun k w member mem ne idle => ?_,
    fun k w member mem ne => ?_⟩
  · rw [same] at many ⊢
    rw [ear_setGroup size]
    exact (caller many).imp_right (rouses.heard _ quiet)
  · rw [same] at mem idle
    rw [voices]
    obtain ⟨left, idle', alert⟩ := others k w member mem ne idle
    unfold voice at alert ⊢
    split_ifs at alert ⊢ with many
    · rcases alert with heard | asleep
      · exact absurd (heard left) idle'
      · exact asleep.rouses rouses (scope' k w member mem ne) jobs
    · exact alert.rouses quiet rouses (scope' k w member mem ne) jobs
  · rw [same] at mem
    exact (inner k w member mem ne).rouses rouses (scope' k w member mem ne) jobs

/-- An attempt at a group starts. -/
theorem Attempt.start (watched : (Wait.group g members).Watched s) (known : g < s.groups.size)
    (quiet : Beside g (ear s st))
    (scope : ∀ (k : Nat) w, members[k]? = some w →
      w.Over (fun g' => g' < s.groups.size ∧ g' ≠ g) R) :
    Attempt (s.setGroup g ((s.group g).start (ear s st))) st members g fun _ => False := by
  have size : ((s.group g).start (ear s st)).size = (s.group g).size := by
    unfold Group.start
    dsimp only
    split_ifs <;> rfl
  cases watched with
  | simple h => cases h
  | group all alert inner =>
    unfold Group.start at size ⊢
    dsimp only at size ⊢
    split_ifs at size ⊢ with many
    · refine .setGroup size all known (fun _ => .inl rfl) quiet (fun k w member mem _ idle => ?_)
        (fun k w member mem _ => inner k w member mem) fun k w member _ _ => scope k w member
      refine ⟨mem, idle, ?_⟩
      rw [voice, if_pos (show (s.group g).isMany = true from many)]
      exact alert many k w member mem
    · refine .setGroup size all known (fun h => absurd h many) quiet
        (fun k w _ mem _ idle => absurd mem idle)
        (fun k w member mem _ => inner k w member mem) fun k w member _ _ => scope k w member

/-- A member of a group has had to wait. -/
theorem Attempt.waits (h : Attempt s st members g (· = k)) (known : g < s.groups.size)
    (alert : w.Alert s (voice s st g k)) (watched : w.Watched s)
    (scope : ∀ (i : Nat) w', (members.set k w)[i]? = some w' →
      w'.Over (fun g => g < s.groups.size) R) :
    Attempt (s.settle g k none (ear s st)) st (members.set k w) g fun _ => False := by
  have rouses := rouses_settle_none s g k (ear s st)
  have jobs : KeepsJobs R s (s.settle g k none (ear s st)) := fun r _ => by
    rw [settle_same.1]
    exact ⟨rfl, rfl⟩
  have left := rouses.left g known fun _ => trivial
  have size : ∀ g, (s.settle g k none (ear s st)).groups.size = s.groups.size := by simp
  have ears : ear (s.settle g k none (ear s st)) st = ear s st :=
    ear_congr fun g' => by
      rw [Group.isMany, Group.isMany, (sameMembers_settle_none s g k (ear s st) g').size]
  have voices : ∀ i, voice (s.settle g k none (ear s st)) st g i = voice s st g i := fun i => by
    rw [voice, voice, ears, Group.isMany, Group.isMany, rouses.size g known]
  have scope' : ∀ (i : Nat) w', (members.set k w)[i]? = some w' →
      w'.Over (fun g => g < s.groups.size ∧ ∀ i, Everyone (.member g i)) R :=
    fun i w' member => (scope i w' member).mono fun _ hg => ⟨hg, fun _ => trivial⟩
  have nodes : ∀ {i : Nat} {w'}, (members.set k w)[i]? = some w' →
      i = k ∧ w' = w ∨ i ≠ k ∧ members[i]? = some w' := by
    intro i w' member
    by_cases ne : i = k
    · subst ne
      have lt : i < members.length := by simpa using (List.getElem?_eq_some_iff.mp member).1
      rw [List.getElem?_set_self lt] at member
      exact .inl ⟨rfl, (Option.some.inj member).symm⟩
    · rw [List.getElem?_set_ne (Ne.symm ne)] at member
      exact .inr ⟨ne, member⟩
  refine ⟨by rw [rouses.size g known, h.size, List.length_set], fun many => ?_,
    fun i w' member mem _ idle => ?_, fun i w' member mem _ => ?_⟩
  · rw [Group.isMany, rouses.size g known] at many
    rw [ears]
    rcases h.caller many with caller | heard
    · rcases rouses.callers g known fun _ => trivial with ⟨_, same⟩ | heard
      · exact .inl (same.trans caller)
      · rw [caller] at heard
        exact .inr heard
    · exact .inr (rouses.heard _ trivial heard)
  · rw [left] at mem
    rw [voices]
    refine Wait.Alert.rouses ?_ trivial rouses (scope' i w' member) jobs
    rcases nodes member with ⟨rfl, rfl⟩ | ⟨ne, member⟩
    · exact alert
    · refine h.others i w' member mem ne fun due => idle ?_
      exact rouses.heard (.member g i) trivial (fun _ => due) (left.symm ▸ mem)
  · rw [left] at mem
    refine Wait.Watched.rouses ?_ rouses (scope' i w' member) jobs
    rcases nodes member with ⟨rfl, rfl⟩ | ⟨ne, member⟩
    · exact watched
    · exact h.inner i w' member mem ne

/-- A member of a group has ended. -/
theorem Attempt.ends {outcome : Outcome} (h : Attempt s st members g (· = k))
    (known : g < s.groups.size) (orderly : IsOrderly (s.group g)) (quiet : Beside g (ear s st))
    (scope : ∀ (i : Nat) w, members[i]? = some w → i ≠ k →
      w.Over (fun g' => g' < s.groups.size ∧ g' ≠ g) R) :
    Attempt (s.settle g k (some outcome) (ear s st)) st members g fun _ => False := by
  have other : ∀ {i}, i ∈ (s.group g).left.erase k → i ≠ k ∧ i ∈ (s.group g).left :=
    fun mem => orderly.left.mem_erase_iff.mp mem
  rw [settle_some]
  refine .setGroup rfl h.size known (fun _ => .inl rfl) quiet (fun i w member mem _ idle => ?_)
    (fun i w member mem _ => ?_) fun i w member mem _ => scope i w member (other mem).1
  · obtain ⟨ne, left⟩ := other mem
    have idle' : i ∉ (s.group g).due := fun due => idle ((List.mem_erase_of_ne ne).mpr due)
    exact ⟨left, idle', h.others i w member left ne idle'⟩
  · obtain ⟨ne, left⟩ := other mem
    exact h.inner i w member left ne

/-- The next member of a group is advanced. -/
theorem Attempt.next {α : Type} {xs : List α} {x : α} {group : Group}
    (h : Attempt s st members g fun _ => False) (known : g < s.groups.size)
    (quiet : Beside g (ear s st)) (next : (s.group g).next? xs = some (x, k, group))
    (scope : ∀ (i : Nat) w, members[i]? = some w → i ≠ k →
      w.Over (fun g' => g' < s.groups.size ∧ g' ≠ g) R) :
    Attempt (s.setGroup g group) st members g (· = k) := by
  obtain ⟨due, hd, _, rfl⟩ := next?_eq_some next
  refine .setGroup rfl h.size known h.caller quiet (fun i w member mem ne idle => ?_)
    (fun i w member mem _ => h.inner i w member mem id) fun i w member _ ne => scope i w member ne
  have idle' : i ∉ (s.group g).due := by
    rw [hd, List.mem_cons, not_or]
    exact ⟨ne, idle⟩
  exact ⟨mem, idle', h.others i w member mem id idle'⟩

/-- While a member of a group is being advanced, it is the member that is told. -/
theorem ear_cons {frame : Frame C}
    (h : frame.listener? s = if (s.group g).isMany then some (.member g k) else none) :
    ear s (frame :: st) = voice s st g k := by
  unfold ear voice
  rw [List.findSome?_cons, h]
  split_ifs <;> rfl

end Attempts

end Machine

end ModuleSystem.Loader
