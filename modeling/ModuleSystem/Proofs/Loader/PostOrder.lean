import Mathlib.Data.List.Nodup
import Mathlib.Logic.Relation
import ModuleSystem.Loader.Record

/-!
# Depth-first post-order

A depth-first walk through a graph of modules takes the dependencies of a module in their order,
looks at each module once, and lists a module after all that it has come to from there. Modules that
are skipped are looked at, but neither listed nor gone through. With each module that it lists, the
walk tells the path on which it has come there: the module that it has come from first, and the root
last.

## Main definitions

* `PostOrder` : what a depth-first walk lists.

## Main results

* `exists_postOrder` : in a finite graph a walk comes to its end.
* `PostOrder.unique` : it does so in one way only.
* `PostOrder.mem_iff` : it lists the modules that can be reached without going through those that are
  skipped.
-/

namespace ModuleSystem.Loader

/-- A walk that has come on a path to some modules and has looked at those in `seen` before lists
the modules in `order`, each with its path; in the end it has looked at those in `seen'`. -/
inductive PostOrder (edges : RecordId → List RecordId) (skip : RecordId → Prop) :
    List RecordId → List RecordId → List RecordId → List (RecordId × List RecordId) →
      List RecordId → Prop
  | done {path seen} : PostOrder edges skip path [] seen [] seen
  | again {path r rs seen order seen'} (old : r ∈ seen)
      (rest : PostOrder edges skip path rs seen order seen') :
      PostOrder edges skip path (r :: rs) seen order seen'
  | skipped {path r rs seen order seen'} (fresh : r ∉ seen) (skipped : skip r)
      (rest : PostOrder edges skip path rs (r :: seen) order seen') :
      PostOrder edges skip path (r :: rs) seen order seen'
  | visit {path r rs seen below seen' order seen''} (fresh : r ∉ seen) (taken : ¬ skip r)
      (deep : PostOrder edges skip (r :: path) (edges r) (r :: seen) below seen')
      (rest : PostOrder edges skip path rs seen' order seen'') :
      PostOrder edges skip path (r :: rs) seen (below ++ (r, path) :: order) seen''

section PostOrder

variable {edges : RecordId → List RecordId} {skip : RecordId → Prop}
  {path rs seen seen' seen₁ seen₂ : List RecordId}
  {order order₁ order₂ : List (RecordId × List RecordId)}
  {r d : RecordId} {v : RecordId × List RecordId}

/-- What a walk has looked at it does not forget. -/
theorem PostOrder.seen_subset (h : PostOrder edges skip path rs seen order seen') :
    seen ⊆ seen' := by
  induction h with
  | done => exact List.Subset.refl _
  | again _ _ ih => exact ih
  | skipped _ _ _ ih => exact List.Subset.trans (List.subset_cons_self _ _) ih
  | visit _ _ _ _ deep rest =>
    exact List.Subset.trans (List.subset_cons_self _ _) (List.Subset.trans deep rest)

/-- A walk looks at the modules that it starts with. -/
theorem PostOrder.subset_seen (h : PostOrder edges skip path rs seen order seen') :
    rs ⊆ seen' := by
  induction h with
  | done => exact List.nil_subset _
  | again old rest ih => exact List.cons_subset.mpr ⟨rest.seen_subset old, ih⟩
  | skipped _ _ rest ih => exact List.cons_subset.mpr ⟨rest.seen_subset List.mem_cons_self, ih⟩
  | visit _ _ deep rest _ ih =>
    exact List.cons_subset.mpr ⟨rest.seen_subset (deep.seen_subset List.mem_cons_self), ih⟩

/-- A walk lists only modules that it comes to for the first time and does not skip. -/
theorem PostOrder.of_mem (h : PostOrder edges skip path rs seen order seen')
    (hv : v ∈ order) : v.1 ∉ seen ∧ v.1 ∈ seen' ∧ ¬ skip v.1 := by
  induction h with
  | done => exact absurd hv List.not_mem_nil
  | again _ _ ih => exact ih hv
  | skipped _ _ _ ih =>
    obtain ⟨fresh, looked, taken⟩ := ih hv
    exact ⟨fun h => fresh (List.mem_cons_of_mem _ h), looked, taken⟩
  | visit fresh taken deep rest ihd ihr =>
    rcases List.mem_append.mp hv with hv | hv
    · obtain ⟨fresh', looked, taken'⟩ := ihd hv
      exact ⟨fun h => fresh' (List.mem_cons_of_mem _ h), rest.seen_subset looked, taken'⟩
    rcases List.mem_cons.mp hv with rfl | hv
    · exact ⟨fresh, rest.seen_subset (deep.seen_subset List.mem_cons_self), taken⟩
    · obtain ⟨fresh', looked, taken'⟩ := ihr hv
      exact ⟨fun h => fresh' (deep.seen_subset (List.mem_cons_of_mem _ h)), looked, taken'⟩

/-- A walk lists no module twice. -/
theorem PostOrder.nodup (h : PostOrder edges skip path rs seen order seen') :
    (order.map Prod.fst).Nodup := by
  induction h with
  | done => exact List.nodup_nil
  | again _ _ ih | skipped _ _ _ ih => exact ih
  | @visit path r _ _ below _ order _ fresh _ deep rest ihd ihr =>
    have later : ∀ x ∈ order.map Prod.fst, x ≠ r ∧ x ∉ below.map Prod.fst := by
      intro x hx
      obtain ⟨v, hv, rfl⟩ := List.mem_map.mp hx
      have unseen := (rest.of_mem hv).1
      refine ⟨fun same => unseen (same ▸ deep.seen_subset List.mem_cons_self), fun hx => ?_⟩
      obtain ⟨w, hw, same⟩ := List.mem_map.mp hx
      exact unseen (same ▸ (deep.of_mem hw).2.1)
    have earlier : r ∉ below.map Prod.fst := by
      intro hr
      obtain ⟨w, hw, same⟩ := List.mem_map.mp hr
      exact (deep.of_mem hw).1 (same ▸ List.mem_cons_self)
    rw [List.map_append, List.map_cons]
    refine ihd.append (List.nodup_cons.mpr ⟨fun h => (later r h).1 rfl, ihr⟩) ?_
    intro x hx hx'
    rcases List.mem_cons.mp hx' with rfl | hx'
    · exact earlier hx
    · exact (later x hx').2 hx

/-- The path to a module that is listed goes on from the path of the walk, through modules that are
listed after it. -/
theorem PostOrder.path_of_mem (h : PostOrder edges skip path rs seen order seen')
    (hv : v ∈ order) : ∃ between, v.2 = between ++ path ∧ between ⊆ order.map Prod.fst := by
  induction h with
  | done => exact absurd hv List.not_mem_nil
  | again _ _ ih | skipped _ _ _ ih => exact ih hv
  | @visit path r _ _ below _ order _ _ _ deep rest ihd ihr =>
    rcases List.mem_append.mp hv with hv | hv
    · obtain ⟨between, eq, sub⟩ := ihd hv
      refine ⟨between ++ [r], by rw [eq, List.append_assoc]; rfl, ?_⟩
      rw [List.map_append, List.map_cons]
      exact List.append_subset.mpr ⟨fun x hx => List.mem_append_left _ (sub hx),
        fun x hx => List.mem_append_right _ (List.mem_singleton.mp hx ▸ List.mem_cons_self)⟩
    rcases List.mem_cons.mp hv with rfl | hv
    · exact ⟨[], rfl, List.nil_subset _⟩
    · obtain ⟨between, eq, sub⟩ := ihr hv
      refine ⟨between, eq, fun x hx => ?_⟩
      rw [List.map_append, List.map_cons]
      exact List.mem_append_right _ (List.mem_cons_of_mem _ (sub hx))

/-- What a walk has looked at before is not on the paths that it goes on from there. -/
theorem PostOrder.not_mem_of_mem (h : PostOrder edges skip path rs seen order seen')
    {between : List RecordId} (hv : (r, between ++ path) ∈ order) (hd : d ∈ seen) :
    d ∉ between := by
  obtain ⟨between', same, sub⟩ := h.path_of_mem hv
  obtain rfl := List.append_cancel_right same
  intro mem
  obtain ⟨v, hv, rfl⟩ := List.mem_map.mp (sub mem)
  exact (h.of_mem hv).1 hd

/-- A walk stays among modules that lead to no others. -/
theorem PostOrder.subset_of_closed (h : PostOrder edges skip path rs seen order seen')
    {among : List RecordId} (closed : ∀ r ∈ among, ¬ skip r → edges r ⊆ among) (start : rs ⊆ among)
    (looked : seen ⊆ among) : seen' ⊆ among := by
  induction h with
  | done => exact looked
  | again _ _ ih => exact ih (List.cons_subset.mp start).2 looked
  | skipped _ _ _ ih =>
    obtain ⟨first, others⟩ := List.cons_subset.mp start
    exact ih others (List.cons_subset.mpr ⟨first, looked⟩)
  | visit _ taken _ _ ihd ihr =>
    obtain ⟨first, others⟩ := List.cons_subset.mp start
    exact ihr others (ihd (closed _ first taken) (List.cons_subset.mpr ⟨first, looked⟩))

/-- What a walk looks at it lists, unless it is skipped. -/
theorem PostOrder.listed_of_seen (h : PostOrder edges skip path rs seen order seen')
    (looked : r ∈ seen') (fresh : r ∉ seen) (taken : ¬ skip r) : r ∈ order.map Prod.fst := by
  induction h with
  | done => exact absurd looked fresh
  | again _ _ ih => exact ih looked fresh
  | @skipped _ x _ _ _ _ _ skipped _ ih =>
    refine ih looked fun h => ?_
    rcases List.mem_cons.mp h with rfl | h
    · exact taken skipped
    · exact fresh h
  | @visit _ x _ _ below seen' order _ _ _ _ _ ihd ihr =>
    rw [List.map_append, List.map_cons, List.mem_append, List.mem_cons]
    by_cases same : r = x
    · exact .inr (.inl same)
    by_cases early : r ∈ seen'
    · exact .inl (ihd early fun h => (List.mem_cons.mp h).elim same fresh)
    · exact .inr (.inr (ihr looked early))

/-- When a walk lists a module, it has looked at all of its dependencies. -/
theorem PostOrder.edges_subset_seen (h : PostOrder edges skip path rs seen order seen')
    (hv : v ∈ order) : edges v.1 ⊆ seen' := by
  induction h with
  | done => exact absurd hv List.not_mem_nil
  | again _ _ ih | skipped _ _ _ ih => exact ih hv
  | visit _ _ deep rest ihd ihr =>
    rcases List.mem_append.mp hv with hv | hv
    · exact List.Subset.trans (ihd hv) rest.seen_subset
    rcases List.mem_cons.mp hv with rfl | hv
    · exact List.Subset.trans deep.subset_seen rest.seen_subset
    · exact ihr hv

/-- A walk lists only what can be reached from where it starts. -/
theorem PostOrder.reached_of_mem (h : PostOrder edges skip path rs seen order seen')
    (hv : v ∈ order) :
    ∃ r ∈ rs, Relation.ReflTransGen (fun a b => ¬ skip a ∧ b ∈ edges a) r v.1 := by
  induction h with
  | done => exact absurd hv List.not_mem_nil
  | again _ _ ih | skipped _ _ _ ih =>
    obtain ⟨r, hr, reached⟩ := ih hv
    exact ⟨r, List.mem_cons_of_mem _ hr, reached⟩
  | visit _ taken _ _ ihd ihr =>
    rcases List.mem_append.mp hv with hv | hv
    · obtain ⟨d, hd, reached⟩ := ihd hv
      exact ⟨_, List.mem_cons_self, .head ⟨taken, hd⟩ reached⟩
    rcases List.mem_cons.mp hv with rfl | hv
    · exact ⟨_, List.mem_cons_self, .refl⟩
    · obtain ⟨r, hr, reached⟩ := ihr hv
      exact ⟨r, List.mem_cons_of_mem _ hr, reached⟩

/-- A walk from one module lists those that can be reached from it without going through modules that
are skipped, and are not skipped themselves. -/
theorem PostOrder.mem_iff (h : PostOrder edges skip path [r] [] order seen') :
    d ∈ order.map Prod.fst ↔
      Relation.ReflTransGen (fun a b => ¬ skip a ∧ b ∈ edges a) r d ∧ ¬ skip d := by
  constructor
  · intro hd
    obtain ⟨v, hv, rfl⟩ := List.mem_map.mp hd
    obtain ⟨_, hr, reached⟩ := h.reached_of_mem hv
    obtain rfl := List.mem_singleton.mp hr
    exact ⟨reached, (h.of_mem hv).2.2⟩
  · rintro ⟨reached, taken⟩
    refine h.listed_of_seen ?_ List.not_mem_nil taken
    clear taken
    induction reached with
    | refl => exact h.subset_seen List.mem_cons_self
    | tail _ edge looked =>
      obtain ⟨v, hv, rfl⟩ :=
        List.mem_map.mp (h.listed_of_seen looked List.not_mem_nil edge.1)
      exact h.edges_subset_seen hv edge.2

/-- Among finitely many modules that lead to no others, a walk comes to its end. -/
theorem exists_postOrder {among : List RecordId}
    (closed : ∀ r ∈ among, ¬ skip r → edges r ⊆ among) (start : rs ⊆ among) :
    ∃ order seen', PostOrder edges skip path rs seen order seen' := by
  classical
  -- The walk goes deeper only at a module that it has not looked at, of which there are fewer then.
  induction hn : (among.filter (· ∉ seen)).length using Nat.strongRecOn generalizing path rs seen with
  | ind n deeper =>
  have fewer : ∀ {seen₁ seen₂ : List RecordId}, seen₁ ⊆ seen₂ →
      (among.filter (· ∉ seen₂)).length ≤ (among.filter (· ∉ seen₁)).length := fun sub =>
    (List.monotone_filter_right among fun x hx => by
      simp only [decide_eq_true_eq] at hx ⊢
      exact fun h => hx (sub h)).length_le
  replace hn : (among.filter (· ∉ seen)).length ≤ n := Nat.le_of_eq hn
  induction rs generalizing seen with
  | nil => exact ⟨[], seen, .done⟩
  | cons r rs next =>
    obtain ⟨first, others⟩ := List.cons_subset.mp start
    by_cases old : r ∈ seen
    · obtain ⟨order, seen', rest⟩ := next others hn
      exact ⟨order, seen', .again old rest⟩
    by_cases skipped : skip r
    · obtain ⟨order, seen', rest⟩ :=
        next others (Nat.le_trans (fewer (List.subset_cons_self r seen)) hn)
      exact ⟨order, seen', .skipped old skipped rest⟩
    have less : (among.filter (· ∉ r :: seen)).length < n := by
      refine Nat.lt_of_lt_of_le ?_ hn
      have split : among.filter (· ∉ r :: seen) = (among.filter (· ∉ seen)).filter (· ≠ r) := by
        rw [List.filter_filter]
        refine List.filter_congr fun x _ => ?_
        simp [List.mem_cons, not_or]
      rw [split]
      refine List.length_filter_lt_length_iff_exists.mpr ⟨r, ?_, by simp⟩
      exact List.mem_filter.mpr ⟨first, by simpa using old⟩
    obtain ⟨below, seen', deep⟩ := deeper _ less (closed r first skipped) rfl
    obtain ⟨order, seen'', rest⟩ :=
      next others (Nat.le_trans
        (fewer (List.Subset.trans (List.subset_cons_self r seen) deep.seen_subset)) hn)
    exact ⟨_, seen'', .visit old skipped deep rest⟩

/-- There is one walk only. -/
theorem PostOrder.unique (h₁ : PostOrder edges skip path rs seen order₁ seen₁)
    (h₂ : PostOrder edges skip path rs seen order₂ seen₂) : order₁ = order₂ ∧ seen₁ = seen₂ := by
  induction h₁ generalizing order₂ seen₂ with
  | done =>
    cases h₂
    exact ⟨rfl, rfl⟩
  | again old _ ih =>
    cases h₂ with
    | again _ rest => exact ih rest
    | skipped fresh _ _ | visit fresh _ _ _ => exact absurd old fresh
  | skipped fresh skipped _ ih =>
    cases h₂ with
    | again old _ => exact absurd old fresh
    | skipped _ _ rest => exact ih rest
    | visit _ taken _ _ => exact absurd skipped taken
  | visit fresh taken _ _ ihd ihr =>
    cases h₂ with
    | again old _ => exact absurd old fresh
    | skipped _ skipped _ => exact absurd skipped taken
    | visit _ _ deep rest =>
      obtain ⟨rfl, rfl⟩ := ihd deep
      obtain ⟨rfl, rfl⟩ := ihr rest
      exact ⟨rfl, rfl⟩

end PostOrder

end ModuleSystem.Loader
