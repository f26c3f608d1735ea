import ModuleSystem.Proofs.Loader.Store

/-!
# Groups in one attempt

When no member of a group has to wait and none fails, one attempt at the group advances all of them
(`Group.IsGoing`). What else happens meanwhile can only make members due (`Store.Woken`), which does
not disturb the attempt.

## Main results

* `Group.IsGoing.next?_cases` : as long as members are left, the next of them can be advanced, and
  the attempt goes on when it has ended.
-/

namespace ModuleSystem.Loader

variable {C : Type}

namespace Store

/-- A group has been left alone, but for members that have become due. -/
structure Woken (g g' : Group) : Prop extends SameMembers g g' where
  due : g.due ⊆ g'.due
  resting : g'.isResting = g.isResting

section Woken

variable {s : Store C} {g : GroupId} {x x₁ x₂ x₃ : Group}

theorem Woken.refl (x : Group) : Woken x x :=
  ⟨.refl x, List.Subset.refl _, rfl⟩

theorem Woken.trans (h : Woken x₁ x₂) (h' : Woken x₂ x₃) : Woken x₁ x₃ where
  toSameMembers := h.toSameMembers.trans h'.toSameMembers
  due := List.Subset.trans h.due h'.due
  resting := h'.resting.trans h.resting

theorem woken_call (x : Group) (i : Nat) : Woken x (x.call i).1 := by
  refine ⟨sameMembers_call x i, ?_, ?_⟩
  · simp only [Group.call]
    split_ifs <;> simp
  · simp only [Group.call]
    split_ifs <;> rfl

theorem woken_tell (s : Store C) (ls : List Listener) (g : GroupId) :
    Woken (s.group g) ((s.tell ls).group g) := by
  rw [tell]
  generalize 2 * (ls.length + s.jobs.foldl (fun n job => n + job.subscriptions.length) 0 +
    s.groups.size) = fuel
  induction fuel, ls, s using tellWithin.induct with
  | case1 fuel s =>
    rw [tellWithin]
    exact .refl _
  | case2 _ _ s => exact .refl _
  | case3 fuel others s ih => exact ih
  | case4 fuel j others s ih => exact ih
  | case5 fuel g' i others s x caller h ih =>
    simp only [tellWithin, h]
    refine Woken.trans ?_ ih
    have called := woken_call (s.group g') i
    rw [h] at called
    rw [group_setGroup]
    split_ifs with same
    · rw [same.1]
      exact called
    · exact .refl _

theorem woken_finish (s : Store C) (j : JobId) (outcome : Outcome) (g : GroupId) :
    Woken (s.group g) ((s.finish j outcome).group g) := by
  have woken := woken_tell
    (((s.updateJob j Job.silence).setJob j (.finished outcome)).note (.finished j))
    (s.job j).active g
  rw [note_same.2.2.2.2.1, setJob_same.2.2.1] at woken
  exact woken

end Woken

end Store

namespace Group

open Store

/-- An attempt at a group goes on in which no member has failed or has had to wait: all members that
are left are due. -/
structure IsGoing (g : Group) : Prop extends Store.IsOrderly g where
  ready : g.left ⊆ g.due
  clean : ∀ e ∈ g.errors, e = none
  resting : g.isResting = false

section IsGoing

variable {g g' : Group} {i : Nat} {l : Listener}

/-- The first attempt at a group. -/
theorem isGoing_start (n : Nat) (l : Listener) : ((Group.ofSize n).start l).IsGoing := by
  obtain ⟨left, due, sub, errors, pending⟩ := isOrderly_ofSize n
  have clean : ∀ e ∈ List.replicate n (none : Option LoaderError), e = none :=
    fun e he => List.eq_of_mem_replicate he
  simp only [start]
  split_ifs
  · exact ⟨⟨left, due, sub, errors, pending⟩, List.Subset.refl _, clean, rfl⟩
  · exact ⟨⟨left, left, List.Subset.refl _, errors, pending⟩, List.Subset.refl _, clean, rfl⟩

theorem size_start : (g.start l).size = g.size := by
  rw [start]
  split <;> rfl

theorem left_start : (g.start l).left = g.left := by
  rw [start]
  split <;> rfl

theorem IsGoing.failure? (going : g.IsGoing) : g.failure? = none := by
  have none_of : ∀ errors : List (Option LoaderError), errors ⊆ g.errors →
      errors.findSome? id = none := fun errors sub =>
    List.findSome?_eq_none_iff.mpr fun e he => going.clean e (sub he)
  simp only [Group.failure?]
  split_ifs
  · exact none_of _ (List.take_subset _ _)
  · exact none_of _ (List.Subset.refl _)

/-- When the member that is being advanced ends well, the attempt goes on with the others. -/
theorem IsGoing.memberEnded {due : List Nat} (going : g.IsGoing) (first : g.due = i :: due)
    (woken : Woken { g with due, current := some i, isStirred := false } g') :
    (g'.memberEnded i none l).IsGoing := by
  have left : g'.left = g.left := woken.left
  have nodup := going.due
  rw [first, List.nodup_cons] at nodup
  obtain ⟨leftNodup, dueNodup, sub, errors, pending⟩ := woken.orderly
    ⟨going.left, nodup.2, fun x hx => going.sub (first ▸ List.mem_cons_of_mem _ hx), going.errors,
      going.pending⟩
  simp only [Group.memberEnded, renew]
  refine ⟨⟨leftNodup.erase i, dueNodup.erase i, fun x hx => ?_, by simpa using errors,
    fun x hx => ?_⟩, fun x hx => ?_, fun e he => ?_, rfl⟩
  · obtain ⟨ne, mem⟩ := dueNodup.mem_erase_iff.mp hx
    exact leftNodup.mem_erase_iff.mpr ⟨ne, sub mem⟩
  · obtain ⟨ne, mem⟩ := leftNodup.mem_erase_iff.mp hx
    rw [List.getElem?_set_ne (Ne.symm ne)]
    exact pending x mem
  · obtain ⟨ne, mem⟩ := leftNodup.mem_erase_iff.mp hx
    have mem' : x ∈ g.due := going.ready (left ▸ mem)
    rw [first] at mem'
    exact dueNodup.mem_erase_iff.mpr ⟨ne, woken.due ((List.mem_cons.mp mem').resolve_left ne)⟩
  · rcases List.mem_or_eq_of_mem_set he with he | rfl
    · exact going.clean e (woken.errors ▸ he)
    · rfl

/-- In an attempt that goes on, all members have ended, or the next one is to be advanced. -/
theorem IsGoing.next?_cases {α : Type} (going : g.IsGoing) (members : List α)
    (size : members.length = g.size) :
    g.next? members = none ∧ g.left = [] ∨
      ∃ x i due,
        g.next? members = some (x, i, { g with due, current := some i, isStirred := false }) ∧
        g.due = i :: due ∧ members[i]? = some x ∧ i ∈ g.left := by
  cases hd : g.due with
  | nil =>
    have none : g.left = [] := List.subset_nil.mp (hd ▸ going.ready)
    exact .inl ⟨by rw [next?, hd], none⟩
  | cons i due =>
    have left : i ∈ g.left := going.sub (hd ▸ List.mem_cons_self)
    have lt : i < members.length := by
      rw [size]
      exact going.lt_of_left left
    obtain ⟨x, hx⟩ : ∃ x, members[i]? = some x := ⟨_, List.getElem?_eq_getElem lt⟩
    exact .inr ⟨x, i, due, by simp [next?, hd, going.resting, hx], rfl, hx, left⟩

end IsGoing

end Group

end ModuleSystem.Loader
