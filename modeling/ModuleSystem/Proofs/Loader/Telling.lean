import ModuleSystem.Proofs.Loader.Registry

/-!
# Telling listeners

Whoever has to wait listens, through the subscriptions of jobs and the members of groups. When
listeners are told, all those whom they pass it on to are told as well (`Store.Tells`): the number
of turns that are allowed for this is enough. So listeners do not get lost. From one store to the
next, a listener either goes on to be where it was, or it has been told and will look again by
itself (`Store.Heard`, `Store.Rouses`).

## Main definitions

* `Store.Heard` : a listener has been told and not listened again since.
* `Store.Rouses` : between two stores listeners have only been told.

## Main results

* `Store.tells_tell` : everyone who is to be told is told.
* `Store.rouses_tell`, `Store.rouses_finish`, `Store.rouses_settle_none` : no listener gets lost.
-/

namespace ModuleSystem.Loader

variable {C : Type}

/-! ### Subscriptions -/

namespace Job

variable {job : Job C} {l l' : Listener}

@[simp] theorem active_silence : job.silence.active = [] := by
  simp [silence, active, List.filter_eq_nil_iff]

@[simp] theorem active_default : (default : Job C).active = [] := rfl

/-- Whoever subscribes is told next time, and the others go on to be. -/
theorem mem_active_subscribe : l ∈ (job.subscribe l').active ↔ l = l' ∨ l ∈ job.active := by
  unfold subscribe
  split_ifs with known
  · obtain ⟨x, mem, hx⟩ := List.any_eq_true.mp known
    have same : x.listener = l' := by simpa using hx
    simp only [active, List.mem_map, List.mem_filter]
    constructor
    · rintro ⟨_, ⟨⟨y, hy, rfl⟩, isActive⟩, rfl⟩
      split_ifs at isActive ⊢ with eq
      · exact .inl eq
      · exact .inr ⟨y, ⟨hy, isActive⟩, rfl⟩
    · rintro (rfl | ⟨y, ⟨hy, isActive⟩, rfl⟩)
      · exact ⟨_, ⟨⟨x, mem, rfl⟩, by rw [if_pos same]⟩, by rw [if_pos same]; exact same⟩
      · refine ⟨_, ⟨⟨y, hy, rfl⟩, ?_⟩, ?_⟩ <;> split_ifs <;> first | rfl | exact isActive
  · simp only [active, List.filter_append, List.map_append, List.mem_append]
    rw [or_comm]
    simp

end Job

namespace Store

/-- A listener has been told and looks again by itself: nobody waits for a job that has told its
subscribers, and a member that has been told is due. -/
def Heard (s : Store C) : Listener → Prop
  | .nobody => True
  | .job j => (s.job j).active = []
  | .member g i => i ∈ (s.group g).left → i ∈ (s.group g).due

/-- Listeners are told, and whoever they pass it on to before the next of them. -/
inductive Tells : Store C → List Listener → Store C → Prop
  | done {s} : Tells s [] s
  | nobody {s others s'} (h : Tells s others s') : Tells s (.nobody :: others) s'
  | job {s j others s'}
      (h : Tells (s.updateJob j Job.silence) ((s.job j).active ++ others) s') :
      Tells s (.job j :: others) s'
  | member {s g i others s'}
      (h : Tells (s.setGroup g ((s.group g).call i).1) (((s.group g).call i).2 :: others) s') :
      Tells s (.member g i :: others) s'

/-! ### The turns that telling takes -/

section Fuel

variable {s : Store C} {ls : List Listener} {j : JobId} {g : GroupId} {i : Nat}

/-- The sum of what the entries of a list count for. -/
private def total {α : Type} (f : α → Nat) : List α → Nat
  | [] => 0
  | x :: xs => f x + total f xs

private theorem total_append {α : Type} (f : α → Nat) (xs ys : List α) :
    total f (xs ++ ys) = total f xs + total f ys := by
  induction xs with
  | nil => exact (Nat.zero_add _).symm
  | cons x xs ih => rw [List.cons_append, total, total, ih, Nat.add_assoc]

private theorem total_le {α : Type} {f g : α → Nat} (h : ∀ x, f x ≤ g x) (xs : List α) :
    total f xs ≤ total g xs := by
  induction xs with
  | nil => exact Nat.le_refl 0
  | cons x xs ih => exact Nat.add_le_add (h x) ih

private theorem total_const {α : Type} (n : Nat) (xs : List α) :
    total (fun _ => n) xs = n * xs.length := by
  induction xs with
  | nil => rfl
  | cons x xs ih => rw [total, ih, List.length_cons, Nat.mul_succ, Nat.add_comm]

private theorem foldl_add_eq_total {α : Type} (f : α → Nat) (xs : List α) (n : Nat) :
    xs.foldl (fun n x => n + f x) n = n + total f xs := by
  induction xs generalizing n with
  | nil => rfl
  | cons x xs ih => rw [List.foldl_cons, ih, total, Nat.add_assoc]

private theorem total_modify {α : Type} (w : α → Nat) (f : α → α) (xs : List α) (i : Nat) :
    total w (xs.modify i f) + (xs[i]?.map w).getD 0 = total w xs + (xs[i]?.map (w ∘ f)).getD 0 := by
  induction xs generalizing i with
  | nil => simp [total]
  | cons x xs ih =>
    cases i with
    | zero =>
      simp only [List.modify_zero_cons, total, List.getElem?_cons_zero, Option.map_some,
        Option.getD_some, Function.comp_apply]
      omega
    | succ i =>
      have := ih i
      simp only [List.modify_succ_cons, total, List.getElem?_cons_succ]
      omega

/-- How many subscribers are to be told. -/
private def actives (s : Store C) : Nat :=
  total (fun job : Job C => job.active.length) s.jobs.toList

/-- How many groups have a caller. -/
private def called (s : Store C) : Nat :=
  total (fun g : Group => if g.caller = .nobody then 0 else 1) s.groups.toList

/-- How many turns a listener takes, but for those whom it passes it on to. -/
private def turns : Listener → Nat
  | .nobody => 1
  | _ => 2

private theorem turns_le (l : Listener) : turns l ≤ 2 := by
  cases l <;> simp [turns]

private theorem total_turns_le (ls : List Listener) : total turns ls ≤ 2 * ls.length := by
  rw [← total_const]
  exact total_le turns_le ls

private theorem actives_silence (s : Store C) (j : JobId) :
    actives (s.updateJob j Job.silence) + (s.job j).active.length = actives s := by
  have sum := total_modify (fun job : Job C => job.active.length) Job.silence s.jobs.toList j
  have job : (s.job j).active.length =
      (s.jobs.toList[j]?.map fun job : Job C => job.active.length).getD 0 := by
    rw [Store.job, Array.getElem?_toList]
    cases s.jobs[j]? <;> rfl
  have silent : (s.jobs.toList[j]?.map
      ((fun job : Job C => job.active.length) ∘ Job.silence)).getD 0 = 0 := by
    cases s.jobs.toList[j]? with
    | none => rfl
    | some job => simp
  rw [silent] at sum
  rw [actives, updateJob, Array.toList_modify, job]
  exact sum

private theorem called_setGroup (s : Store C) (g : GroupId) (x : Group) :
    called (s.setGroup g x) + (if (s.group g).caller = .nobody then 0 else 1) ≤
      called s + if x.caller = .nobody then 0 else 1 := by
  have sum := total_modify (fun g : Group => if g.caller = .nobody then 0 else 1) (fun _ => x)
    s.groups.toList g
  rw [called, setGroup, Array.toList_modify, Store.group, ← Array.getElem?_toList]
  unfold called
  cases h : s.groups.toList[g]? with
  | none =>
    have same : s.groups.toList.modify g (fun _ => x) = s.groups.toList :=
      List.modify_eq_self (List.getElem?_eq_none_iff.mp h)
    rw [same]
    exact Nat.add_le_add_left (Nat.zero_le _) _
  | some y =>
    rw [h] at sum
    exact Nat.le_of_eq sum

/-- What is told to a member: it becomes due, and its caller is told in its place, unless it is due
already. -/
theorem call_cases (x : Group) (i : Nat) : (i ∈ x.left → i ∈ (x.call i).1.due) ∧
    x.due ⊆ (x.call i).1.due ∧
    ((x.call i).1.due = x.due ∧ (x.call i).1.caller = x.caller ∧ (x.call i).2 = .nobody ∨
      (x.call i).1.caller = .nobody ∧ (x.call i).2 = x.caller) := by
  have due : ∀ {y : Group}, ¬ (y.left.contains i && !y.due.contains i) → i ∈ y.left →
      i ∈ y.due := by
    intro y idle mem
    simpa [mem] using idle
  unfold Group.call
  dsimp only
  split_ifs with current idle idle
  · exact ⟨fun _ => List.mem_append_right _ List.mem_cons_self, List.subset_append_left _ _,
      .inr ⟨rfl, rfl⟩⟩
  · exact ⟨due idle, List.Subset.refl _, .inl ⟨rfl, rfl, rfl⟩⟩
  · exact ⟨fun _ => List.mem_append_right _ List.mem_cons_self, List.subset_append_left _ _,
      .inr ⟨rfl, rfl⟩⟩
  · exact ⟨due idle, List.Subset.refl _, .inl ⟨rfl, rfl, rfl⟩⟩

/-- Telling comes to its end if there are as many turns as listeners, subscribers and callers can
take. -/
private theorem tells_tellWithin {fuel : Nat}
    (enough : total turns ls + 2 * actives s + 2 * called s ≤ fuel) :
    Tells s ls (s.tellWithin fuel ls) := by
  induction fuel generalizing s ls with
  | zero =>
    cases ls with
    | nil => exact .done
    | cons l ls => cases l <;> simp [total, turns] at enough
  | succ fuel ih =>
    cases ls with
    | nil => exact .done
    | cons l ls =>
      rw [total] at enough
      cases l with
      | nobody =>
        refine .nobody (ih ?_)
        simp only [turns] at enough
        omega
      | job j =>
        refine .job (ih ?_)
        have silent := actives_silence s j
        have few := total_turns_le (s.job j).active
        have same : called (s.updateJob j Job.silence) = called s := rfl
        simp only [turns] at enough
        rw [total_append, same]
        omega
      | member g i =>
        refine .member (ih ?_)
        have fewer := called_setGroup s g ((s.group g).call i).1
        have same : actives (s.setGroup g ((s.group g).call i).1) = actives s := rfl
        simp only [turns] at enough
        rw [total, same]
        rcases (call_cases (s.group g) i).2.2 with ⟨_, caller, silent⟩ | ⟨caller, passed⟩
        · rw [silent, turns]
          rw [caller] at fewer
          omega
        · rw [passed]
          rw [caller, if_pos rfl] at fewer
          split_ifs at fewer with nobody
          · rw [nobody, turns]
            omega
          · have := turns_le (s.group g).caller
            omega

/-- Everyone who is to be told is told. -/
theorem tells_tell (s : Store C) (ls : List Listener) : Tells s ls (s.tell ls) := by
  refine tells_tellWithin ?_
  have subscribers : actives s ≤ s.jobs.foldl (fun n job => n + job.subscriptions.length) 0 := by
    rw [← Array.foldl_toList, foldl_add_eq_total, Nat.zero_add]
    refine total_le (fun job => ?_) _
    rw [Job.active, List.length_map]
    exact List.length_filter_le _ _
  have callers : called s ≤ s.groups.size := by
    rw [← Array.length_toList, ← Nat.one_mul s.groups.toList.length, ← total_const]
    refine total_le (fun g => ?_) _
    split_ifs <;> decide
  have := total_turns_le ls
  omega

end Fuel

/-! ### Who has been told -/

/-- Between two stores listeners have only been told, but for those that are not calm: whoever had
been told still is, and whoever was to be told still is to be, or has been. The same holds of the
callers of groups: as long as they have not been told, nobody has become due. -/
structure Rouses (calm : Listener → Prop) (s s' : Store C) : Prop where
  size : ∀ g, g < s.groups.size → (s'.group g).size = (s.group g).size
  heard : ∀ l, calm l → s.Heard l → s'.Heard l
  listens : ∀ l j, l ∈ (s.job j).active → l ∈ (s'.job j).active ∨ s'.Heard l
  left : ∀ g, g < s.groups.size → (∀ i, calm (.member g i)) →
    (s'.group g).left = (s.group g).left
  callers : ∀ g, g < s.groups.size → (∀ i, calm (.member g i)) →
    (s'.group g).due = (s.group g).due ∧ (s'.group g).caller = (s.group g).caller ∨
      s'.Heard (s.group g).caller

/-- All listeners. -/
abbrev Everyone : Listener → Prop := fun _ => True

section Rouses

variable {s s' s₁ s₂ s₃ : Store C} {ls : List Listener} {j : JobId} {g : GroupId} {i : Nat}
  {l : Listener}

theorem Rouses.mono {calm calm' : Listener → Prop} (h : Rouses calm s s')
    (le : ∀ l, calm' l → calm l) : Rouses calm' s s' where
  size := h.size
  heard l quiet := h.heard l (le l quiet)
  listens := h.listens
  left g hg quiet := h.left g hg fun i => le _ (quiet i)
  callers g hg quiet := h.callers g hg fun i => le _ (quiet i)

theorem Rouses.trans {calm : Listener → Prop} (h : Rouses calm s₁ s₂)
    (h' : Rouses Everyone s₂ s₃) (le : s₁.groups.size ≤ s₂.groups.size) : Rouses calm s₁ s₃ where
  size g hg := (h'.size g (Nat.lt_of_lt_of_le hg le)).trans (h.size g hg)
  heard l quiet heard := h'.heard l trivial (h.heard l quiet heard)
  listens l j mem := by
    rcases h.listens l j mem with mem | heard
    · exact h'.listens l j mem
    · exact .inr (h'.heard l trivial heard)
  left g hg quiet := (h'.left g (Nat.lt_of_lt_of_le hg le) fun _ => trivial).trans
    (h.left g hg quiet)
  callers g hg quiet := by
    rcases h.callers g hg quiet with ⟨due, caller⟩ | heard
    · have later := h'.callers g (Nat.lt_of_lt_of_le hg le) fun _ => trivial
      rwa [due, caller] at later
    · exact .inr (h'.heard _ trivial heard)

/-- Where subscribers and groups stay as they are, but for new groups, nobody is told. -/
theorem rouses_of_same (job : ∀ j, (s'.job j).active = (s.job j).active)
    (group : ∀ g, s'.group g = s.group g ∨ s.groups.size ≤ g ∧ ∃ n, s'.group g = .ofSize n) :
    Rouses Everyone s s' := by
  have old : ∀ {g}, g < s.groups.size → s'.group g = s.group g := fun hg =>
    (group _).resolve_right fun new => absurd hg (Nat.not_lt.mpr new.1)
  refine ⟨fun g hg => by rw [old hg], fun l _ heard => ?_, fun l j mem => .inl (by rwa [job]),
    fun g hg _ => by rw [old hg], fun g hg _ => .inl (by rw [old hg]; exact ⟨rfl, rfl⟩)⟩
  cases l with
  | nobody => trivial
  | job j => exact (job j).trans heard
  | member g i =>
    rcases group g with same | ⟨_, n, new⟩
    · change i ∈ (s'.group g).left → i ∈ (s'.group g).due
      rw [same]
      exact heard
    · change i ∈ (s'.group g).left → i ∈ (s'.group g).due
      rw [new]
      exact id

theorem rouses_of_eq (job : s'.job = s.job) (group : s'.group = s.group) :
    Rouses Everyone s s' :=
  rouses_of_same (fun j => by rw [job]) fun g => .inl (by rw [group])

/-- What is done to a group is of no concern to the other listeners. -/
theorem rouses_setGroup {x : Group} (size : x.size = (s.group g).size) :
    Rouses (fun l => ∀ i, l ≠ .member g i) s (s.setGroup g x) := by
  have other : ∀ {g'}, (∀ i, ∀ k, Listener.member g' i ≠ .member g k) →
      (s.setGroup g x).group g' = s.group g' := by
    intro g' ne
    rw [group_setGroup, if_neg fun h => ne 0 0 (by rw [h.1])]
  refine ⟨fun g' _ => ?_, fun l calm heard => ?_, fun l j mem => .inl mem,
    fun g' _ calm => by rw [other calm],
    fun g' _ calm => .inl (by rw [other calm]; exact ⟨rfl, rfl⟩)⟩
  · rw [group_setGroup]
    split_ifs with h
    · rw [h.1, size]
    · rfl
  · cases l with
    | nobody => trivial
    | job j => exact heard
    | member g' i =>
      change i ∈ ((s.setGroup g x).group g').left → i ∈ ((s.setGroup g x).group g').due
      rw [other fun _ k same => calm i (by rw [(Listener.member.inj same).1])]
      exact heard

/-- When listeners are told, subscribers of jobs stay where they are, or all of them have been told;
and no member of a group becomes due unless its caller has been told. -/
private theorem Tells.spread (h : Tells s ls s') : (∀ l ∈ ls, s'.Heard l) ∧
    (∀ j, (s'.job j).active = (s.job j).active ∨
      (s'.job j).active = [] ∧ ∀ l ∈ (s.job j).active, s'.Heard l) ∧
    ∀ g, (s'.group g).size = (s.group g).size ∧ (s'.group g).left = (s.group g).left ∧
      (s.group g).due ⊆ (s'.group g).due ∧
      ((s'.group g).due = (s.group g).due ∧ (s'.group g).caller = (s.group g).caller ∨
        s'.Heard (s.group g).caller) := by
  induction h with
  | done =>
    exact ⟨fun _ h => absurd h List.not_mem_nil, fun _ => .inl rfl,
      fun _ => ⟨rfl, rfl, List.Subset.refl _, .inl ⟨rfl, rfl⟩⟩⟩
  | nobody _ ih =>
    obtain ⟨told, rest⟩ := ih
    exact ⟨List.forall_mem_cons.mpr ⟨trivial, told⟩, rest⟩
  | @job s j others s' _ ih =>
    obtain ⟨told, jobs, groups⟩ := ih
    obtain ⟨subscribers, others⟩ := List.forall_mem_append.mp told
    have silent : ((s.updateJob j Job.silence).job j).active = [] := by
      rw [job_updateJob]
      split_ifs with known
      · exact Job.active_silence
      · rw [Store.job, Array.getElem?_eq_none (Nat.le_of_not_lt fun lt => known ⟨rfl, lt⟩)]
        exact Job.active_default
    have heard : (s'.job j).active = [] := by
      rcases jobs j with same | ⟨empty, _⟩
      · exact same.trans silent
      · exact empty
    refine ⟨List.forall_mem_cons.mpr ⟨heard, others⟩, fun j' => ?_, groups⟩
    by_cases same : j' = j
    · subst same
      exact .inr ⟨heard, subscribers⟩
    · have kept : (s.updateJob j Job.silence).job j' = s.job j' := by
        rw [job_updateJob, if_neg fun h => same h.1]
      rw [← kept]
      exact jobs j'
  | @member s g i others s' _ ih =>
    obtain ⟨told, jobs, groups⟩ := ih
    obtain ⟨caller, others⟩ := List.forall_mem_cons.mp told
    obtain ⟨due, sub, passed⟩ := call_cases (s.group g) i
    have same := sameMembers_call (s.group g) i
    have group : ∀ g', g' = g ∧ g < s.groups.size ∧
        (s.setGroup g ((s.group g).call i).1).group g' = ((s.group g).call i).1 ∨
        (s.setGroup g ((s.group g).call i).1).group g' = s.group g' := by
      intro g'
      rw [group_setGroup]
      split_ifs with h
      · exact .inl ⟨h.1, h.2, rfl⟩
      · exact .inr rfl
    refine ⟨List.forall_mem_cons.mpr ⟨fun left => ?_, others⟩, jobs, fun g' => ?_⟩
    · obtain ⟨_, left', sub', _⟩ := groups g
      rw [left'] at left
      by_cases known : g < s.groups.size
      · rw [group_setGroup, if_pos ⟨rfl, known⟩] at left sub'
        rw [same.left] at left
        exact sub' (due left)
      · rw [group_setGroup, if_neg fun h => known h.2, Store.group,
          Array.getElem?_eq_none (Nat.le_of_not_lt known)] at left
        exact absurd left List.not_mem_nil
    · obtain ⟨size', left', sub', callers'⟩ := groups g'
      rcases group g' with ⟨rfl, _, new⟩ | old
      · rw [new] at size' left' sub' callers'
        refine ⟨size'.trans same.size, left'.trans same.left, fun _ h => sub' (sub h), ?_⟩
        rcases passed with ⟨due', caller', _⟩ | ⟨_, told⟩
        · rwa [due', caller'] at callers'
        · rw [told] at caller
          exact .inr caller
      · rw [old] at size' left' sub' callers'
        exact ⟨size', left', sub', callers'⟩

/-- Everyone who is told has been told afterwards. -/
theorem heard_tell (s : Store C) (hl : l ∈ ls) : (s.tell ls).Heard l :=
  (tells_tell s ls).spread.1 l hl

theorem rouses_tell (s : Store C) (ls : List Listener) : Rouses Everyone s (s.tell ls) := by
  obtain ⟨_, jobs, groups⟩ := (tells_tell s ls).spread
  refine ⟨fun g _ => (groups g).1, fun l _ heard => ?_, fun l j mem => ?_,
    fun g _ _ => (groups g).2.1, fun g _ _ => (groups g).2.2.2⟩
  · cases l with
    | nobody => trivial
    | job j =>
      rcases jobs j with same | ⟨empty, _⟩
      · exact same.trans heard
      · exact empty
    | member g i =>
      intro left
      rw [(groups g).2.1] at left
      exact (groups g).2.2.1 (heard left)
  · rcases jobs j with same | ⟨_, told⟩
    · exact .inl (same ▸ mem)
    · exact .inr (told l mem)

/-- The store in which a job has ended, before its subscribers are told. -/
private def ended (s : Store C) (j : JobId) (outcome : Outcome) : Store C :=
  ((s.updateJob j Job.silence).setJob j (.finished outcome)).note (.finished j)

private theorem active_ended (s : Store C) (j j' : JobId) (outcome : Outcome) :
    ((s.ended j outcome).job j').active = if j' = j then [] else (s.job j').active := by
  change (((s.updateJob j Job.silence).setJob j (.finished outcome)).job j').active = _
  rw [setJob, job_updateJob, job_updateJob]
  by_cases same : j' = j
  · subst same
    rw [if_pos rfl]
    by_cases known : j' < s.jobs.size
    · rw [if_pos ⟨rfl, by simpa using known⟩, if_pos ⟨rfl, known⟩]
      exact Job.active_silence
    · rw [if_neg fun h => known (by simpa using h.2), if_neg fun h => known h.2, Store.job,
        Array.getElem?_eq_none (Nat.le_of_not_lt known)]
      exact Job.active_default
  · simp only [same, false_and, if_false]

/-- Whoever waits for a job that ends is told. -/
theorem rouses_finish (s : Store C) (j : JobId) (outcome : Outcome) :
    Rouses Everyone s (s.finish j outcome) := by
  have told := rouses_tell (s.ended j outcome) (s.job j).active
  have size : (s.ended j outcome).groups.size = s.groups.size := rfl
  refine ⟨fun g hg => told.size g hg, fun l _ heard => told.heard l trivial ?_, fun l j' mem => ?_,
    fun g hg _ => told.left g hg fun _ => trivial, fun g hg _ => told.callers g hg fun _ => trivial⟩
  · cases l with
    | nobody => trivial
    | job j' =>
      refine (active_ended s j j' outcome).trans ?_
      split_ifs
      · rfl
      · exact heard
    | member g i => exact heard
  · by_cases same : j' = j
    · rw [same] at mem
      exact .inr (heard_tell _ mem)
    · refine told.listens l j' ?_
      rw [active_ended, if_neg same]
      exact mem

/-- Nobody waits for a job that has ended. -/
theorem active_finish (s : Store C) (j : JobId) (outcome : Outcome) :
    ((s.finish j outcome).job j).active = [] :=
  (rouses_tell (s.ended j outcome) (s.job j).active).heard (.job j) trivial
    ((active_ended s j j outcome).trans (if_pos rfl))

/-- The bounds of an attempt are no concern of listeners. -/
private theorem rouses_memberWaits (s : Store C) (g : GroupId) :
    Rouses Everyone s (s.setGroup g (s.group g).memberWaits) := by
  have same : ∀ g', ((s.setGroup g (s.group g).memberWaits).group g').size = (s.group g').size ∧
      ((s.setGroup g (s.group g).memberWaits).group g').left = (s.group g').left ∧
      ((s.setGroup g (s.group g).memberWaits).group g').due = (s.group g').due ∧
      ((s.setGroup g (s.group g).memberWaits).group g').caller = (s.group g').caller := by
    intro g'
    rw [group_setGroup]
    split_ifs with h
    · rw [h.1]
      exact ⟨rfl, rfl, rfl, rfl⟩
    · exact ⟨rfl, rfl, rfl, rfl⟩
  refine ⟨fun g' _ => (same g').1, fun l _ heard => ?_, fun _ _ mem => .inl mem,
    fun g' _ _ => (same g').2.1, fun g' _ _ => .inl (same g').2.2⟩
  cases l with
  | nobody => trivial
  | job j => exact heard
  | member g' i =>
    intro left
    rw [(same g').2.1] at left
    rw [(same g').2.2.1]
    exact heard left

/-- A member that has to wait is no concern of others, but for the caller if the attempt is broken
off. -/
theorem rouses_settle_none (s : Store C) (g : GroupId) (i : Nat) (l : Listener) :
    Rouses Everyone s (s.settle g i none l) := by
  have waits := rouses_memberWaits s g
  unfold settle
  dsimp only
  split_ifs
  · have noted : Rouses Everyone (s.setGroup g (s.group g).memberWaits)
        ((s.setGroup g (s.group g).memberWaits).note (.rested g)) := rouses_of_eq rfl rfl
    exact (waits.trans noted (by simp)).trans (rouses_tell _ _) (by simp)
  · exact waits

/-- When an attempt is broken off, its caller is told. -/
theorem heard_settle_none (h : ((s.settle g i none l).group g).isResting = true)
    (known : g < s.groups.size) : (s.settle g i none l).Heard l := by
  unfold settle at h ⊢
  dsimp only at h ⊢
  split_ifs at h ⊢ with rests
  · exact heard_tell _ List.mem_cons_self
  · rw [group_setGroup, if_pos ⟨rfl, known⟩] at h
    exact absurd h rests

/-- Whoever subscribes listens, and so do the others. -/
theorem rouses_subscribe (s : Store C) (j : JobId) (l : Listener) :
    Rouses (fun l' => l' ≠ .job j) s (s.subscribe j l) := by
  have active : ∀ {l' j'}, l' ∈ (s.job j').active → l' ∈ ((s.subscribe j l).job j').active := by
    intro l' j' mem
    unfold subscribe
    split_ifs
    · exact mem
    · rw [job_updateJob]
      split_ifs
      · exact Job.mem_active_subscribe.mpr (.inr mem)
      · exact mem
  have group : (s.subscribe j l).group = s.group := subscribe_same.2.2.1
  refine ⟨fun g _ => by rw [group], fun l' calm heard => ?_, fun _ _ mem => .inl (active mem),
    fun g _ _ => by rw [group], fun g _ _ => .inl (by rw [group]; exact ⟨rfl, rfl⟩)⟩
  cases l' with
  | nobody => trivial
  | job j' =>
    change ((s.subscribe j l).job j').active = []
    unfold subscribe
    split_ifs
    · exact heard
    · rw [job_updateJob, if_neg fun h => calm (by rw [h.1])]
      exact heard
  | member g i =>
    change i ∈ ((s.subscribe j l).group g).left → i ∈ ((s.subscribe j l).group g).due
    rw [group]
    exact heard

/-- Whoever subscribes to a job waits for it. -/
theorem mem_active_subscribe (known : j < s.jobs.size) (ne : l ≠ .nobody) :
    l ∈ ((s.subscribe j l).job j).active := by
  rw [subscribe, if_neg ne, job_updateJob, if_pos ⟨rfl, known⟩]
  exact Job.mem_active_subscribe.mpr (.inl rfl)

end Rouses

end Store

end ModuleSystem.Loader
