import Mathlib.Data.List.Perm.Subperm
import ModuleSystem.Proofs.Loader.Linking

/-!
# Linking a graph at once

A walk that links a graph looks at each module once. With a synchronous host it never has to wait: it
links the modules that it comes to, one after the other, makes records for their dependencies, and
goes on with these. As there are only so many records, it comes to its end, and all that it has looked
at is linked then, or has been executed before.

## Main definitions

* `Store.Surveyed` : what a walk has not looked at is open, or has been executed before.
* `Store.Settled` : a walk has nothing left to do to link a module.
* `Store.Explores` : a walk has looked at more modules, and linked them.

## Main results

* `Machine.Synchronous.explores` : a walk that starts at a module comes to its end.
-/

namespace ModuleSystem.Loader

variable {C M : Type}

namespace Store

/-- A walk that links a graph has looked at the modules in `seen`. The others that are registered have
been executed before, or are open. -/
structure Surveyed (s : Store C) (seen : List RecordId) : Prop where
  tidy : s.Tidy
  nodup : seen.Nodup
  known : ∀ r ∈ seen, r < s.records.size
  others : ∀ e ∈ s.registry, e.2 ∈ seen ∨ (s.record e.2).state = .executed ∨ s.IsOpen e.2

/-- A module has been executed, or has been linked to modules that a walk has looked at. No job
executes it. -/
structure Settled (s : Store C) (seen : List RecordId) (r : RecordId) : Prop where
  alive : s.isAlive r = true
  idle : (s.record r).evaluation = none
  stage : (s.record r).state = .executed ∨ s.Attached r ∧ (s.record r).dependencies ⊆ seen

/-- A walk that links a graph has come from the modules in `seen` to those in `seen'`. What it has
looked at is linked, and it has looked at the dependencies too. -/
structure Explores (n : Nat) (s s' : Store C) (seen seen' : List RecordId) : Prop
    extends s.Prepares n s' where
  surveyed : s'.Surveyed seen'
  subset : seen ⊆ seen'
  settled : ∀ r ∈ seen', r ∉ seen → s'.Settled seen' r

section Explores

variable {s s' s₁ s₂ s₃ : Store C} {n : Nat} {r : RecordId} {seen seen₁ seen₂ seen₃ : List RecordId}

theorem Surveyed.length_le (surveyed : s.Surveyed seen) : seen.length ≤ s.records.size := by
  have sub : seen ⊆ List.range s.records.size := fun r hr =>
    List.mem_range.mpr (surveyed.known r hr)
  simpa using (List.subperm_of_subset surveyed.nodup sub).length_le

theorem Surveyed.cons (surveyed : s.Surveyed seen) (known : r < s.records.size) (fresh : r ∉ seen) :
    s.Surveyed (r :: seen) where
  tidy := surveyed.tidy
  nodup := List.nodup_cons.mpr ⟨fresh, surveyed.nodup⟩
  known := List.forall_mem_cons.mpr ⟨known, surveyed.known⟩
  others e he := (surveyed.others e he).imp_left (List.mem_cons_of_mem r)

theorem lt_of_executed (executed : (s.record r).state = .executed) : r < s.records.size :=
  Nat.lt_of_not_le fun hle => by
    rw [record_of_size_le hle] at executed
    cases executed

theorem Prepares.executed_iff (h : Prepares n s s') :
    (s'.record r).state = .executed ↔ (s.record r).state = .executed :=
  ⟨h.executed r, fun executed =>
    (h.alike r (lt_of_executed executed) (.inr executed)).state.trans executed⟩

/-- What a walk has settled stays so while it goes on. -/
theorem Prepares.settled (h : Prepares n s s') (sub : seen₁ ⊆ seen₂) (settled : s.Settled seen₁ r) :
    s'.Settled seen₂ r := by
  have alive : s'.isAlive r = true := by rw [h.isAlive, settled.alive]
  rcases settled.stage with executed | ⟨attached, all⟩
  · have alike := h.alike r (lt_of_executed executed) (.inr executed)
    exact ⟨alive, alike.evaluation.trans settled.idle, .inl (h.executed_iff.mpr executed)⟩
  · refine ⟨alive, (h.attached attached).idle, .inr ⟨h.attached attached, ?_⟩⟩
    rw [h.dependencies_eq attached]
    exact List.Subset.trans all sub

theorem Provides.surveyed (h : Provides n s s') (surveyed : s.Surveyed seen) : s'.Surveyed seen where
  tidy := h.tidy surveyed.tidy
  nodup := surveyed.nodup
  known r hr := Nat.lt_of_lt_of_le (surveyed.known r hr) h.size_records
  others e he := by
    rcases h.mem e he with he | ⟨le, lt⟩
    · exact (surveyed.others e he).imp_right (Or.imp h.prepares.executed_iff.mpr h.isOpen)
    · exact .inr (.inr (h.new e.2 le lt))

theorem Provides.explores (h : Provides n s s') (surveyed : s.Surveyed seen) :
    Explores n s s' seen seen :=
  ⟨h.prepares, h.surveyed surveyed, List.Subset.refl _, fun _ hr fresh => absurd hr fresh⟩

theorem Explores.trans (h : Explores n s₁ s₂ seen₁ seen₂) (h' : Explores n s₂ s₃ seen₂ seen₃) :
    Explores n s₁ s₃ seen₁ seen₃ where
  toPrepares := h.toPrepares.trans h'.toPrepares
  surveyed := h'.surveyed
  subset := List.Subset.trans h.subset h'.subset
  settled r hr fresh := by
    by_cases hr₂ : r ∈ seen₂
    · exact h'.toPrepares.settled h'.subset (h.settled r hr₂ fresh)
    · exact h'.settled r hr hr₂

theorem Explores.mono {k : Nat} (h : Explores n s₁ s₂ seen₁ seen₂) (le : k ≤ n) :
    Explores k s₁ s₂ seen₁ seen₂ :=
  ⟨h.toPrepares.mono le, h.surveyed, h.subset, h.settled⟩

/-- A walk has linked a module that it has not looked at before. -/
theorem Links.surveyed (h : Links n r s s') (surveyed : s.Surveyed seen)
    (fresh : r ∉ seen) : s'.Surveyed (r :: seen) where
  tidy := h.tidy
  nodup := List.nodup_cons.mpr ⟨fresh, surveyed.nodup⟩
  known := List.forall_mem_cons.mpr ⟨h.attached.known, fun x hx =>
    Nat.lt_of_lt_of_le (surveyed.known x hx) h.size_records⟩
  others e he := by
    rcases h.new e he with he | isOpen
    · rcases surveyed.others e he with mem | executed | isOpen
      · exact .inl (List.mem_cons_of_mem _ mem)
      · exact .inr (.inl (h.executed_iff.mpr executed))
      · by_cases same : e.2 = r
        · exact .inl (same ▸ List.mem_cons_self)
        · exact .inr (.inr (h.others e.2 same isOpen))
    · exact .inr (.inr isOpen)

/-- A walk has linked a module, and has gone on with its dependencies. -/
theorem Links.explores (h : Links n r s s₁) (alive : s.isAlive r = true)
    (h' : Explores n s₁ s₂ (r :: seen) seen₂) (all : (s₁.record r).dependencies ⊆ seen₂) :
    Explores n s s₂ seen seen₂ where
  toPrepares := h.toPrepares.trans h'.toPrepares
  surveyed := h'.surveyed
  subset := List.Subset.trans (List.subset_cons_self r seen) h'.subset
  settled x hx fresh := by
    by_cases same : x = r
    · subst same
      refine h'.toPrepares.settled (List.Subset.refl _) ⟨?_, h.attached.idle, .inr ⟨h.attached, all⟩⟩
      rw [h.isAlive, alive]
    · exact h'.settled x hx fun mem => (List.mem_cons.mp mem).elim same fresh

end Explores

end Store

namespace Machine

open Store

section Exploring

variable {host : Host C M} {limit : Nat}

/-- A walk that starts at a module comes to its end, having looked at `k` fewer modules than there can
be. -/
def ExploresFrom (host : Host C M) (limit k : Nat) : Prop :=
  ∀ {s : Store C} {memory : M} {st : List (Frame C)} {r : RecordId} {seen : List RecordId} {n : Nat},
    Synchronous host limit ⟨s, memory, st, .link (.start r) seen⟩ → s.Surveyed seen →
    (∃ url, s.lookup url = some r) → n ≤ s.groups.size → limit - seen.length = k →
    ∃ s' memory' seen', RunsTo host ⟨s, memory, st, .link (.start r) seen⟩
        ⟨s', memory', st, .linked (.ok none) seen'⟩ ∧
      Explores n s s' seen seen' ∧ r ∈ seen'

variable {s : Store C} {memory : M} {st : List (Frame C)} {c : Control C} {r : RecordId}
  {seen dependencies : List RecordId} {g : GroupId} {n k : Nat}

/-- A walk goes on with the dependencies of a module, one after the other. -/
private theorem Synchronous.exploresChildren
    (sync : Synchronous host limit
      (linkChildren ⟨s, memory, st, c⟩ r (dependencies.map .start) g seen))
    (deeper : ∀ k' < k, ExploresFrom host limit k') (less : limit - seen.length < k)
    (surveyed : s.Surveyed seen) (bound : g < s.groups.size) (going : (s.group g).IsGoing)
    (size : dependencies.length = (s.group g).size)
    (registered : ∀ d ∈ dependencies, ∃ url, s.lookup url = some d)
    (rest : ∀ i d, dependencies[i]? = some d → d ∈ seen ∨ i ∈ (s.group g).left) :
    ∃ s' memory' seen', RunsTo host
        (linkChildren ⟨s, memory, st, c⟩ r (dependencies.map .start) g seen)
        ⟨s', memory', st, .linked (.ok none) seen'⟩ ∧
      Explores g s s' seen seen' ∧ dependencies ⊆ seen' := by
  induction hk : (s.group g).left.length using Nat.strongRecOn generalizing s memory c seen with
  | ind left next =>
  rcases going.next?_cases (dependencies.map LinkNode.start) (by simpa using size) with
    ⟨ended, left⟩ | ⟨child, i, due, found, first, member, left⟩
  · have ends : linkChildren ⟨s, memory, st, c⟩ r (dependencies.map .start) g seen =
        ⟨s, memory, st, .linked (.ok none) seen⟩ := by
      simp [linkChildren, ended, Group.isOver, left, going.failure?, Machine.next]
    refine ⟨s, memory, seen, ends ▸ .refl, (Provides.refl s).explores surveyed, fun d hd => ?_⟩
    obtain ⟨i, hi⟩ := List.mem_iff_getElem?.mp hd
    refine (rest i d hi).resolve_right fun mem => ?_
    rw [left] at mem
    cases mem
  · obtain ⟨d, hd, rfl⟩ : ∃ d, dependencies[i]? = some d ∧ .start d = child := by
      simpa [List.getElem?_map] using member
    have descends : linkChildren ⟨s, memory, st, c⟩ r (dependencies.map .start) g seen =
        ⟨s.setGroup g { s.group g with due, current := i, isStirred := false }, memory,
          .linkingChildren r (dependencies.map .start) g i :: st, .link (.start d) seen⟩ := by
      simp [linkChildren, found, going.failure?, push, mapStore]
    rw [descends] at sync ⊢
    have advanced : Provides g s
        (s.setGroup g { s.group g with due, current := i, isStirred := false }) :=
      provides_setGroup (Nat.le_refl g)
    obtain ⟨s₁, memory₁, seen₁, runs, explores, looked⟩ := deeper _ less (n := g + 1) sync
      (advanced.surveyed surveyed) ((registered d (List.mem_of_getElem? hd)).imp fun url known =>
        advanced.lookup url d known) (by simpa using Nat.succ_le_of_lt bound) rfl
    have settles : ∃ l, step host ⟨s₁, memory₁,
          .linkingChildren r (dependencies.map .start) g i :: st, .linked (.ok none) seen₁⟩ =
        linkChildren ⟨s₁.setGroup g ((s₁.group g).memberEnded i none l), memory₁, st,
          .linked (.ok none) seen₁⟩ r (dependencies.map .start) g seen₁ := ⟨_, rfl⟩
    obtain ⟨l, settles⟩ := settles
    have goesOn := runs.trans (.of_step settles (by simp))
    have before : Explores g s s₁ seen seen₁ :=
      (advanced.explores surveyed).trans (explores.mono (Nat.le_succ g))
    have ended : Explores g s (s₁.setGroup g ((s₁.group g).memberEnded i none l)) seen seen₁ :=
      before.trans ((provides_setGroup (Nat.le_refl g)).explores before.surveyed)
    have bound₁ : g < s₁.groups.size := Nat.lt_of_lt_of_le bound before.size_groups
    have woken := explores.group g (Nat.lt_succ_self g)
    rw [group_setGroup, if_pos ⟨rfl, bound⟩] at woken
    have group : (s₁.setGroup g ((s₁.group g).memberEnded i none l)).group g =
        (s₁.group g).memberEnded i none l := by
      rw [group_setGroup, if_pos ⟨rfl, bound₁⟩]
    have size₁ : seen.length ≤ seen₁.length :=
      (List.subperm_of_subset surveyed.nodup before.subset).length_le
    have left₁ : ((s₁.group g).memberEnded i none l).left = (s.group g).left.erase i := by
      rw [← woken.left]
      rfl
    have fewer : ((s₁.group g).memberEnded i none l).left.length < (s.group g).left.length := by
      rw [left₁, List.length_erase_of_mem left]
      exact Nat.sub_lt (List.length_pos_of_mem left) Nat.one_pos
    have rest₁ : ∀ j e, dependencies[j]? = some e →
        e ∈ seen₁ ∨ j ∈ ((s₁.group g).memberEnded i none l).left := by
      intro j e he
      by_cases same : j = i
      · rw [same, hd] at he
        exact .inl (Option.some.inj he ▸ looked)
      · rw [left₁]
        exact (rest j e he).imp (fun mem => before.subset mem) (List.mem_erase_of_ne same).mpr
    obtain ⟨s', memory', seen', runs', explores', all⟩ := next _ (hk ▸ fewer) (sync.of_runsTo goesOn)
      (Nat.lt_of_le_of_lt (Nat.sub_le_sub_left size₁ limit) less) ended.surveyed
      (by simpa using bound₁) (by rw [group]; exact going.memberEnded first woken)
      (by rw [group]; exact size.trans woken.size.symm)
      (fun d hd => (registered d hd).imp fun url known => ended.lookup url d known)
      (by rwa [group]) (by rw [group])
    exact ⟨s', memory', seen', goesOn.trans runs', ended.trans explores', all⟩

/-- A walk that starts at a module comes to its end. -/
theorem Synchronous.explores (k : Nat) : ExploresFrom host limit k := by
  induction k using Nat.strongRecOn with
  | ind k deeper =>
  intro s memory st r seen n sync surveyed registered le hk
  obtain ⟨url, found⟩ := registered
  have loadable := surveyed.tidy.of_lookup found
  by_cases old : r ∈ seen
  · have known : step host ⟨s, memory, st, .link (.start r) seen⟩ =
        ⟨s, memory, st, .linked (.ok none) seen⟩ := by
      simp [step, linkNode, old, Machine.next]
    exact ⟨s, memory, seen, .of_step known (by simp), (Provides.refl s).explores surveyed, old⟩
  rcases surveyed.others _ (mem_of_lookup found) with old' | executed | isOpen
  · exact absurd old' old
  · have skips : step host ⟨s, memory, st, .link (.start r) seen⟩ =
        ⟨s, memory, st, .linked (.ok none) (r :: seen)⟩ := by
      simp [step, linkNode, old, loadable.alive, stateOf_eq, executed, Machine.next]
    refine ⟨s, memory, r :: seen, .of_step skips (by simp), ?_, List.mem_cons_self⟩
    refine ⟨.refl s, surveyed.cons loadable.known old, List.subset_cons_self r seen, ?_⟩
    intro x hx fresh
    rcases List.mem_cons.mp hx with rfl | hx
    · exact ⟨loadable.alive, loadable.idle, .inl executed⟩
    · exact absurd hx fresh
  · have begins : RunsTo host ⟨s, memory, st, .link (.start r) seen⟩
        ⟨s, memory, .linkingNode r (r :: seen) :: st, .poll (s.record r).linking⟩ := by
      have looks : step host ⟨s, memory, st, .link (.start r) seen⟩ =
          ⟨s, memory, st, .link (.awaitLinked r) (r :: seen)⟩ := by
        rcases isOpen.stage with h | h <;>
          simp [step, linkNode, old, loadable.alive, stateOf_eq, h.state, Machine.next]
      have polls : step host ⟨s, memory, st, .link (.awaitLinked r) (r :: seen)⟩ =
          ⟨s, memory, .linkingNode r (r :: seen) :: st, .poll (s.record r).linking⟩ := rfl
      exact (RunsTo.of_step looks (by simp)).trans (.of_step polls (by simp))
    obtain ⟨s₁, memory₁, runs, links⟩ :=
      (sync.of_runsTo begins).links surveyed.tidy isOpen loadable.alive le
    obtain ⟨children, hc⟩ : ∃ children, (s₁.record r).dependencies = children := ⟨_, rfl⟩
    have gathers : RunsTo host
        ⟨s₁, memory₁, .linkingNode r (r :: seen) :: st, .polled (some (.ok ()))⟩
        ⟨(s₁.newGroup children.length).1, memory₁, st,
          .link (.join r (children.map .start) s₁.groups.size) (r :: seen)⟩ := by
      refine .of_step ?_ (by simp)
      simp [step, polled, linkedSelf, pop, links.isAlive, loadable.alive, hc]
    have starts : ∃ l, step host ⟨(s₁.newGroup children.length).1, memory₁, st,
          .link (.join r (children.map .start) s₁.groups.size) (r :: seen)⟩ =
        linkChildren ⟨(s₁.newGroup children.length).1.setGroup s₁.groups.size
            ((Group.ofSize children.length).start l), memory₁, st,
          .link (.join r (children.map .start) s₁.groups.size) (r :: seen)⟩ r
            (children.map .start) s₁.groups.size (r :: seen) := by
      refine ⟨ear (s₁.newGroup children.length).1 st, ?_⟩
      simp only [step, linkNode, startGroup, mapStore, group_newGroup, ite_true]
      rfl
    obtain ⟨l, starts⟩ := starts
    have linked := ((begins.trans runs).trans gathers).trans (.of_step starts (by simp))
    have surveyed₁ := links.surveyed surveyed old
    have provides : Provides s₁.groups.size s₁ ((s₁.newGroup children.length).1.setGroup
        s₁.groups.size ((Group.ofSize children.length).start l)) :=
      (provides_newGroup (Nat.le_refl _)).trans (provides_setGroup (Nat.le_refl _))
    have group : ((s₁.newGroup children.length).1.setGroup s₁.groups.size
        ((Group.ofSize children.length).start l)).group s₁.groups.size =
          (Group.ofSize children.length).start l := by
      rw [group_setGroup, if_pos ⟨rfl, by simp⟩]
    have room : seen.length + 1 ≤ limit :=
      Nat.le_trans surveyed₁.length_le (sync.limited _ (begins.trans runs))
    have registered : ∀ d ∈ children, ∃ url, s₁.lookup url = some d := by
      intro d hd
      obtain ⟨_, _, target, _, known⟩ := exists_of_forall₂ links.attached.resolved (hc ▸ hd)
      exact ⟨target, known⟩
    obtain ⟨s₂, memory₂, seen₂, runs₂, explores, all⟩ :=
      (sync.of_runsTo linked).exploresChildren deeper
        (by rw [← hk, List.length_cons]; exact Nat.sub_lt_sub_left room (Nat.lt_succ_self _))
        (provides.surveyed surveyed₁) (by simp) (by rw [group]; exact Group.isGoing_start _ _)
        (by rw [group, Group.size_start]; rfl) registered
        (fun i d hi => .inr (by
          rw [group, Group.left_start]
          exact List.mem_range.mpr (List.getElem?_eq_some_iff.mp hi).1))
    have explored : Explores n s₁ s₂ (r :: seen) seen₂ :=
      ((provides.explores surveyed₁).trans explores).mono
        (Nat.le_trans le links.size_groups)
    exact ⟨s₂, memory₂, seen₂, linked.trans runs₂, links.explores loadable.alive explored (hc ▸ all),
      explored.subset List.mem_cons_self⟩

end Exploring

end Machine

end ModuleSystem.Loader
