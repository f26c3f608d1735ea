import Mathlib.Logic.Relation
import ModuleSystem.Proofs.Loader.Bodies

/-!
# Walks that link a graph

A walk that links a graph keeps the modules that it has looked at, and at every place what is left
to do there. A module that it has looked at is linked, with dependencies that the walk has looked at
too, unless there is something left at a place of the module, or the walk is going to fail
(`Machine.Walks`). So a walk that ends well has linked all that it can reach.

## Main definitions

* `Machine.Reaches`, `Machine.Ready` : the graph below a module, and that all of it is linked.
* `LinkNode.Good`, `Machine.GoodBelow` : what is left at a place, and at the places around it, agrees
  with the records.
* `LinkNode.Covers`, `Machine.CoversBelow` : something is left to do there for a module.
* `Machine.Walks` : a walk is at a place.

## Main results

* `Machine.ready_of_settled` : modules that a walk leaves behind are ready.
* `Machine.Gathers.walks` : how a walk goes on at the dependencies of a module.
-/

namespace ModuleSystem.Loader

variable {C M : Type}

namespace Machine

open Store

/-! ### Graphs -/

/-- A module reaches another along dependencies. -/
def Reaches (m : Machine C M) : RecordId → RecordId → Prop :=
  Relation.ReflTransGen fun r d => d ∈ (m.store.record r).dependencies

/-- All modules that a module reaches are linked. -/
def Ready (m : Machine C M) (r : RecordId) : Prop :=
  ∀ x, m.Reaches r x → m.Linked x

/-- A module that a walk has looked at needs no more linking for itself. -/
def Settled (m : Machine C M) (seen : List RecordId) (r : RecordId) : Prop :=
  m.Ready r ∨ m.Linked r ∧ ∀ d ∈ (m.store.record r).dependencies, d ∈ seen

/-- From one machine to another, linked modules stay linked, to the same dependencies. -/
structure Onward (m m' : Machine C M) : Prop where
  linked : ∀ r, m.Linked r → m'.Linked r
  dependencies : ∀ r, m.Linked r →
    (m'.store.record r).dependencies = (m.store.record r).dependencies

section Graphs

variable {host : Host C M} {ρ ρ' : Roles} {m m' : Machine C M} {r d x : RecordId}
  {seen seen' : List RecordId}

theorem Ready.linked (h : m.Ready r) : m.Linked r := h r .refl

theorem Ready.dependency (h : m.Ready r) (hd : d ∈ (m.store.record r).dependencies) :
    m.Ready d :=
  fun x reaches => h x (.head hd reaches)

theorem eq_of_reaches_of_nil (h : (m.store.record r).dependencies = []) (reaches : m.Reaches r x) :
    r = x := by
  rcases Relation.ReflTransGen.cases_head reaches with same | ⟨d, hd, _⟩
  · exact same
  · rw [h] at hd
    exact nomatch hd

/-- A linked module without dependencies is ready. -/
theorem ready_of_nil (linked : m.Linked r) (h : (m.store.record r).dependencies = []) :
    m.Ready r :=
  fun _ reaches => eq_of_reaches_of_nil h reaches ▸ linked

/-- A walk that has nothing left to do leaves only ready modules behind. -/
theorem ready_of_settled (h : ∀ x ∈ seen, m.Settled seen x) (hr : r ∈ seen) : m.Ready r := by
  have reached : ∀ x, m.Reaches r x → x ∈ seen ∨ m.Ready x := by
    intro x reaches
    induction reaches with
    | refl => exact .inl hr
    | tail _ hd ih =>
      rcases ih with mem | ready
      · rcases h _ mem with ready | ⟨_, below⟩
        · exact .inr (ready.dependency hd)
        · exact .inl (below _ hd)
      · exact .inr (ready.dependency hd)
  intro x reaches
  rcases reached x reaches with mem | ready
  · rcases h x mem with ready | ⟨linked, _⟩
    · exact ready.linked
    · exact linked
  · exact ready.linked

theorem Onward.reaches (onward : Onward m m') (ready : m.Ready r) (h : m'.Reaches r x) :
    m.Reaches r x := by
  induction h with
  | refl => exact .refl
  | tail _ hd ih =>
    rw [onward.dependencies _ (ready _ ih)] at hd
    exact ih.tail hd

/-- What a module reaches it goes on to reach: only linked modules have dependencies. -/
theorem Onward.reaches_mono (onward : Onward m m') (staged : m.Staged ρ) (h : m.Reaches r x) :
    m'.Reaches r x := by
  refine Relation.ReflTransGen.mono (fun r d hd => ?_) _ _ h
  rwa [onward.dependencies r (staged.dependencies r (List.ne_nil_of_mem hd))]

theorem Onward.ready (onward : Onward m m') (h : m.Ready r) : m'.Ready r :=
  fun x reaches => onward.linked x (h x (onward.reaches h reaches))

theorem Onward.settled (onward : Onward m m') (sub : seen ⊆ seen') (h : m.Settled seen r) :
    m'.Settled seen' r := by
  rcases h with ready | ⟨linked, below⟩
  · exact .inl (onward.ready ready)
  · refine .inr ⟨onward.linked r linked, fun d hd => ?_⟩
    rw [onward.dependencies r linked] at hd
    exact sub (below d hd)

/-- Steps do not change what linked modules are linked to. -/
theorem SoundStep.onward (step : SoundStep host ρ ρ' m m') : Onward m m' := by
  refine ⟨fun r h => step.linked h, fun r h => ?_⟩
  cases step.rule.recordChange h.1 with
  | same record => exact record.dependencies
  | failed _ same record => simp [record, same.dependencies]
  | attached way _ _ _ => exact absurd h (step.sound.not_linked way)
  | imported _ _ _ _ _ record | hooked _ _ _ _ record | adopted _ _ _ _ _ record
      | deferred _ _ _ record | comes _ _ _ _ record | collected _ _ _ _ _ _ record
      | suspended _ _ _ record | ended _ _ _ _ _ record | bodyless _ _ _ _ record
      | bodyFailed _ _ _ record => simp [record]

theorem SoundPause.onward {ρ : Roles} (pause : SoundPause ρ m m') : Onward m m' :=
  ⟨fun _ h => pause.linked.mpr h, fun _ _ => by rw [pause.change.kept.record]⟩

end Graphs

/-! ### Places -/

/-- The dependencies of a linked module, which are being linked as a group: those that have ended
well have been looked at. -/
structure Family (m : Machine C M) (seen : List RecordId) (r : RecordId)
    (children : List LinkNode) (g : GroupId) : Prop where
  looked : r ∈ seen
  linked : m.Linked r
  modules : children.map LinkNode.module = (m.store.record r).dependencies
  size : (m.store.group g).size = children.length
  ended : ∀ (i : Nat) child, children[i]? = some child → i ∉ (m.store.group g).left →
    (m.store.group g).errors[i]? = some none → child.module ∈ seen

end Machine

/-- What a walk has left to do at a place agrees with the records. -/
inductive LinkNode.Good (m : Machine C M) (seen : List RecordId) : LinkNode → Prop
  | start {r} : Good m seen (.start r)
  | awaitLinked {r} (h : r ∈ seen) : Good m seen (.awaitLinked r)
  | join {r children g} (family : m.Family seen r children g)
      (left : ∀ (i : Nat) child, children[i]? = some child → i ∈ (m.store.group g).left →
        Good m seen child) : Good m seen (.join r children g)

/-- A walk has something left to do at a place for a module, or is going to fail there. -/
inductive LinkNode.Covers (s : Store C) (x : RecordId) : LinkNode → Prop
  | awaitLinked : Covers s x (.awaitLinked x)
  | here {children g} : Covers s x (.join x children g)
  | spoiled {r children g error} (h : some error ∈ (s.group g).errors) :
      Covers s x (.join r children g)
  | child {r children g child} {i : Nat} (h : children[i]? = some child)
      (left : i ∈ (s.group g).left) (covers : Covers s x child) : Covers s x (.join r children g)

namespace Machine

open Store

/-- What a walk has left to do around a place, but not at the place itself, agrees with the
records. -/
inductive GoodBelow (m : Machine C M) (seen : List RecordId) : List (Frame C) → Prop
  | graph {r st} : GoodBelow m seen (.linkingGraph r :: st)
  | children {r children g i st} (family : m.Family seen r children g)
      (current : i ∈ (m.store.group g).left)
      (others : ∀ (k : Nat) child, children[k]? = some child → k ∈ (m.store.group g).left →
        k ≠ i → child.Good m seen)
      (below : GoodBelow m seen st) : GoodBelow m seen (.linkingChildren r children g i :: st)

/-- A walk has something left to do for a module around a place, but not at the place itself, or is
going to fail there. -/
inductive CoversBelow (s : Store C) (x : RecordId) : List (Frame C) → Prop
  | here {children g i st} : CoversBelow s x (.linkingChildren x children g i :: st)
  | spoiled {r children g i st error} (h : some error ∈ (s.group g).errors) :
      CoversBelow s x (.linkingChildren r children g i :: st)
  | other {r children g i st child} {k : Nat} (h : children[k]? = some child)
      (left : k ∈ (s.group g).left) (ne : k ≠ i) (covers : child.Covers s x) :
      CoversBelow s x (.linkingChildren r children g i :: st)
  | around {r children g i st} (h : CoversBelow s x st) :
      CoversBelow s x (.linkingChildren r children g i :: st)

/-- A walk is at a place: what is left of it agrees with the records, and covers all modules that it
has looked at and that are not settled. -/
structure Walks (m : Machine C M) (seen : List RecordId) (node : LinkNode) (st : List (Frame C)) :
    Prop where
  good : node.Good m seen
  below : GoodBelow m seen st
  covers : ∀ x ∈ seen, m.Settled seen x ∨ node.Covers m.store x ∨ CoversBelow m.store x st

/-- The place of a walk is that of a module. -/
inductive IsAt (r : RecordId) : List (Frame C) → Prop
  | graph {st} : IsAt r (.linkingGraph r :: st)
  | child {r' children g st child} {i : Nat} (h : children[i]? = some child)
      (module : child.module = r) : IsAt r (.linkingChildren r' children g i :: st)

section Places

variable {ρ : Roles} {m m' : Machine C M} {seen seen' : List RecordId} {node : LinkNode}
  {st : List (Frame C)} {j : JobId} {path : List Nat} {r x : RecordId} {children : List LinkNode}
  {g : GroupId}

theorem Awaits.isAt (h : Awaits ρ (.linked j path r) st) : IsAt r st := by
  rcases h with _ | ⟨fits, _⟩
  cases fits with
  | linkingGraph _ => exact .graph
  | linkingChildren _ _ member => exact .child member rfl

theorem Family.congr (h : m.Family seen r children g) (onward : Onward m m') (sub : seen ⊆ seen')
    (same : SameMembers (m.store.group g) (m'.store.group g)) : m'.Family seen' r children g where
  looked := sub h.looked
  linked := onward.linked r h.linked
  modules := by rw [h.modules, onward.dependencies r h.linked]
  size := by rw [same.size, h.size]
  ended i child hi left error := by
    rw [same.left] at left
    rw [same.errors] at error
    exact sub (h.ended i child hi left error)

/-- What is left at a place goes on to agree as long as the groups at it and below stay as they
are. -/
theorem good_congr (h : node.Good m seen) (onward : Onward m m') (sub : seen ⊆ seen')
    (fits : node.Fits ρ j path)
    (same : ∀ p g, path <+: p → ρ.Owns j p g →
      SameMembers (m.store.group g) (m'.store.group g)) : node.Good m' seen' := by
  induction h generalizing path with
  | start => exact .start
  | awaitLinked h => exact .awaitLinked (sub h)
  | join family _ ih =>
    cases fits with
    | join owner below =>
      have own := same path _ (List.prefix_refl path) owner
      refine .join (family.congr onward sub own) fun i child hi left => ?_
      rw [own.left] at left
      exact ih i child hi left (below i child hi) fun p g pre =>
        same p g ((List.prefix_append path [i]).trans pre)

theorem covers_congr (h : node.Covers m.store x) (fits : node.Fits ρ j path)
    (same : ∀ p g, path <+: p → ρ.Owns j p g →
      SameMembers (m.store.group g) (m'.store.group g)) : node.Covers m'.store x := by
  induction h generalizing path with
  | awaitLinked => exact .awaitLinked
  | here => exact .here
  | spoiled h =>
    cases fits with
    | join owner _ =>
      rw [← (same path _ (List.prefix_refl path) owner).errors] at h
      exact .spoiled h
  | child hi left _ ih =>
    cases fits with
    | join owner below =>
      rw [← (same path _ (List.prefix_refl path) owner).left] at left
      exact .child hi left (ih (below _ _ hi) fun p g pre =>
        same p g ((List.prefix_append path _).trans pre))

/-- A place is not at or below another one beside it. -/
theorem not_prefix_of_ne {i k : Nat} {p : List Nat} (ne : k ≠ i)
    (h : path ++ [k] <+: p) : ¬ path ++ [i] <+: p := by
  rintro ⟨rest, rfl⟩
  obtain ⟨rest', h⟩ := h
  simp only [List.append_assoc, List.append_cancel_left_eq, List.cons_append, List.nil_append,
    List.cons.injEq] at h
  exact ne h.1

theorem not_prefix_self {i : Nat} : ¬ path ++ [i] <+: path := by
  intro h
  have le := h.length_le
  simp only [List.length_append, List.length_singleton] at le
  omega

/-- What is left around a place goes on to agree as long as the groups there stay as they are. -/
theorem GoodBelow.congr (h : GoodBelow m seen st) (onward : Onward m m') (sub : seen ⊆ seen')
    (awaits : Awaits ρ (.linked j path r) st)
    (same : ∀ p g, ¬ path <+: p → ρ.Owns j p g →
      SameMembers (m.store.group g) (m'.store.group g)) : GoodBelow m' seen' st := by
  induction h generalizing path r with
  | graph => exact .graph
  | children family current others _ ih =>
    rcases awaits with _ | ⟨fits, awaits⟩
    cases fits with
    | @linkingChildren _ path _ _ _ _ _ owner nodes member =>
      have own := same path _ not_prefix_self owner
      refine .children (family.congr onward sub own) ?_ (fun k child hk left ne => ?_) ?_
      · rwa [own.left]
      · rw [own.left] at left
        exact good_congr (others k child hk left ne) onward sub (nodes k child hk) fun p g pre =>
          same p g (not_prefix_of_ne ne pre)
      · exact ih awaits fun p g pre => same p g fun h =>
          pre ((List.prefix_append path _).trans h)

theorem CoversBelow.congr (h : CoversBelow m.store x st)
    (awaits : Awaits ρ (.linked j path r) st)
    (same : ∀ p g, ¬ path <+: p → ρ.Owns j p g →
      SameMembers (m.store.group g) (m'.store.group g)) : CoversBelow m'.store x st := by
  induction h generalizing path r with
  | here => exact .here
  | spoiled h =>
    rcases awaits with _ | ⟨fits, _⟩
    cases fits with
    | @linkingChildren _ path _ _ _ _ _ owner _ _ =>
      rw [← (same path _ not_prefix_self owner).errors] at h
      exact .spoiled h
  | other hk left ne covers =>
    rcases awaits with _ | ⟨fits, _⟩
    cases fits with
    | @linkingChildren _ path _ _ _ _ _ owner nodes _ =>
      rw [← (same path _ not_prefix_self owner).left] at left
      exact .other hk left ne (covers_congr covers (nodes _ _ hk) fun p g pre =>
        same p g (not_prefix_of_ne ne pre))
  | around _ ih =>
    rcases awaits with _ | ⟨fits, awaits⟩
    cases fits with
    | @linkingChildren _ path _ _ _ _ _ owner _ _ =>
      exact .around (ih awaits fun p g pre => same p g fun h =>
        pre ((List.prefix_append path _).trans h))

/-- A walk goes on to be at a place as long as its groups stay as they are. -/
theorem Walks.congr (h : m.Walks seen node st) (onward : Onward m m')
    (fits : node.Fits ρ j path) (awaits : Awaits ρ (.linked j path r) st)
    (same : ∀ p g, ρ.Owns j p g → SameMembers (m.store.group g) (m'.store.group g)) :
    m'.Walks seen node st where
  good := good_congr h.good onward (fun _ h => h) fits fun p g _ => same p g
  below := h.below.congr onward (fun _ h => h) awaits fun p g _ => same p g
  covers x hx := by
    rcases h.covers x hx with settled | covers | covers
    · exact .inl (onward.settled (fun _ h => h) settled)
    · exact .inr (.inl (covers_congr covers fits fun p g _ => same p g))
    · exact .inr (.inr (covers.congr awaits fun p g _ => same p g))

/-! ### From a module to a dependency and back -/

/-- A walk goes to a dependency that is left. -/
theorem Walks.enter {child : LinkNode} {i : Nat} (h : m.Walks seen (.join r children g) st)
    (hi : children[i]? = some child) (left : i ∈ (m.store.group g).left) :
    m.Walks seen child (.linkingChildren r children g i :: st) := by
  obtain ⟨good, below, covers⟩ := h
  cases good with
  | join family nodes =>
    refine ⟨nodes i child hi left, .children family left (fun k child hk left _ =>
      nodes k child hk left) below, fun x hx => ?_⟩
    rcases covers x hx with settled | covers | covers
    · exact .inl settled
    · cases covers with
      | here => exact .inr (.inr .here)
      | spoiled h => exact .inr (.inr (.spoiled h))
      | @child _ _ _ _ k hk left covers =>
        by_cases ne : k = i
        · subst ne
          obtain rfl := Option.some.inj (hk.symm.trans hi)
          exact .inr (.inl covers)
        · exact .inr (.inr (.other hk left ne covers))
    · exact .inr (.inr (.around covers))

private theorem map_set_eq {child child' : LinkNode} {i : Nat} (hi : children[i]? = some child)
    (same : child'.module = child.module) :
    (children.set i child').map LinkNode.module = children.map LinkNode.module := by
  refine List.ext_getElem? fun k => ?_
  rw [List.map_set, List.getElem?_set]
  split_ifs with hk hlt
  · subst hk
    rw [List.getElem?_map, hi, same]
    rfl
  · rw [hk] at hlt
    exact (List.getElem?_eq_none_iff.mpr (Nat.le_of_not_lt hlt)).symm
  · rfl

/-- A walk comes back from a dependency where something is left to do. -/
theorem Walks.leave {child child' : LinkNode} {i : Nat}
    (h : m.Walks seen child' (.linkingChildren r children g i :: st))
    (hi : children[i]? = some child) (same : child'.module = child.module) :
    m.Walks seen (.join r (children.set i child') g) st := by
  obtain ⟨good, below, covers⟩ := h
  have lt : i < children.length := (List.getElem?_eq_some_iff.mp hi).1
  cases below with
  | children family current others below =>
    have nodes : ∀ {k : Nat} {c : LinkNode}, (children.set i child')[k]? = some c →
        k = i ∧ c = child' ∨ k ≠ i ∧ children[k]? = some c := by
      intro k c hk
      by_cases ne : k = i
      · subst ne
        rw [List.getElem?_set_self lt] at hk
        exact .inl ⟨rfl, (Option.some.inj hk).symm⟩
      · rw [List.getElem?_set_ne (Ne.symm ne)] at hk
        exact .inr ⟨ne, hk⟩
    refine ⟨.join ⟨family.looked, family.linked, ?_, ?_, fun k c hk left error => ?_⟩
      fun k c hk left => ?_, below, fun x hx => ?_⟩
    · rw [map_set_eq hi same, family.modules]
    · rw [family.size, List.length_set]
    · rcases nodes hk with ⟨rfl, _⟩ | ⟨_, hk⟩
      · exact absurd current left
      · exact family.ended k c hk left error
    · rcases nodes hk with ⟨_, rfl⟩ | ⟨ne, hk⟩
      · exact good
      · exact others k c hk left ne
    · rcases covers x hx with settled | covers | covers
      · exact .inl settled
      · exact .inr (.inl (.child (List.getElem?_set_self lt) current covers))
      · cases covers with
        | here => exact .inr (.inl .here)
        | spoiled h => exact .inr (.inl (.spoiled h))
        | other hk left ne covers =>
          exact .inr (.inl (.child (by rwa [List.getElem?_set_ne ne.symm]) left covers))
        | around covers => exact .inr (.inr covers)

/-- A walk comes back from a place where nothing is left to do. -/
structure Returns (m : Machine C M) (seen : List RecordId) (st : List (Frame C)) : Prop where
  place : ∃ r ∈ seen, IsAt r st
  below : GoodBelow m seen st
  covers : ∀ x ∈ seen, m.Settled seen x ∨ CoversBelow m.store x st

/-- The group of a place has changed in that one of its members has ended. -/
structure MemberEnded (m m' : Machine C M) (g : GroupId) (i : Nat)
    (error : Option LoaderError) : Prop where
  left : (m'.store.group g).left = (m.store.group g).left.erase i
  errors : (m'.store.group g).errors = (m.store.group g).errors.set i error
  size : (m'.store.group g).size = (m.store.group g).size
  others : ∀ g', g' ≠ g → SameMembers (m.store.group g') (m'.store.group g')

section Ended

variable {i : Nat} {error : Option LoaderError} (owner : ρ.Owns j path g)
  (nodes : ∀ (k : Nat) child, children[k]? = some child → child.Fits ρ j (path ++ [k]))
  (awaits : Awaits ρ (.linked j path r) st) (ended : MemberEnded m m' g i error)

include owner

private theorem MemberEnded.same (ended : MemberEnded m m' g i error) {p : List Nat}
    {g' : GroupId} (ne : p ≠ path) (own : ρ.Owns j p g') :
    SameMembers (m.store.group g') (m'.store.group g') := by
  refine ended.others g' fun h => ne ?_
  rw [h] at own
  exact (Prod.mk.inj (Option.some.inj (own.symm.trans owner))).2

private theorem MemberEnded.same_child (ended : MemberEnded m m' g i error) {p : List Nat}
    {g' : GroupId} {k : Nat} (pre : path ++ [k] <+: p) (own : ρ.Owns j p g') :
    SameMembers (m.store.group g') (m'.store.group g') :=
  ended.same owner (fun h => not_prefix_self (h ▸ pre)) own

private theorem MemberEnded.same_below (ended : MemberEnded m m' g i error) {p : List Nat}
    {g' : GroupId} (pre : ¬ path <+: p) (own : ρ.Owns j p g') :
    SameMembers (m.store.group g') (m'.store.group g') :=
  ended.same owner (fun h => pre (h ▸ List.prefix_refl _)) own

include nodes awaits ended

/-- What is left agrees with the records after a walk has ended at a dependency. -/
theorem GoodBelow.memberEnded (h : GoodBelow m seen (.linkingChildren r children g i :: st))
    (orderly : IsOrderly (m.store.group g)) (onward : Onward m m')
    (done : error = none → ∀ child, children[i]? = some child → child.module ∈ seen) :
    (LinkNode.join r children g).Good m' seen ∧ GoodBelow m' seen st := by
  have keeps : seen ⊆ seen := fun _ h => h
  cases h with
  | children family current others below =>
    refine ⟨.join ⟨family.looked, onward.linked r family.linked, ?_, ?_, ?_⟩ ?_, ?_⟩
    · rw [family.modules, onward.dependencies r family.linked]
    · rw [ended.size, family.size]
    · intro k child hk left none
      rw [ended.left] at left
      rw [ended.errors] at none
      by_cases ne : k = i
      · subst ne
        have lt : k < (m.store.group g).errors.length :=
          (List.getElem?_eq_some_iff.mp (orderly.pending k current)).1
        rw [List.getElem?_set_self lt] at none
        exact done (Option.some.inj none) child hk
      · rw [List.mem_erase_of_ne ne] at left
        rw [List.getElem?_set_ne (Ne.symm ne)] at none
        exact family.ended k child hk left none
    · intro k child hk left
      rw [ended.left] at left
      obtain ⟨ne, left⟩ := orderly.left.mem_erase_iff.mp left
      exact good_congr (others k child hk left ne) onward keeps (nodes k child hk) fun p g' pre =>
        ended.same_child owner pre
    · exact below.congr onward keeps awaits fun p g' pre => ended.same_below owner pre

/-- A walk comes back from a dependency where nothing is left to do. -/
theorem Returns.leave (h : m.Returns seen (.linkingChildren r children g i :: st))
    (_ : error = none) (orderly : IsOrderly (m.store.group g)) (onward : Onward m m') :
    m'.Walks seen (.join r children g) st := by
  obtain ⟨⟨x, hx, place⟩, below, covers⟩ := h
  have done : error = .none → ∀ child, children[i]? = some child → child.module ∈ seen := by
    intro _ child hi
    cases place with
    | child hi' module =>
      obtain rfl := Option.some.inj (hi.symm.trans hi')
      rwa [module]
  obtain ⟨good, below'⟩ := below.memberEnded owner nodes awaits ended orderly onward done
  refine ⟨good, below', fun x hx => ?_⟩
  rcases covers x hx with settled | covers
  · exact .inl (onward.settled (fun _ h => h) settled)
  · cases covers with
    | here => exact .inr (.inl .here)
    | @spoiled _ _ _ _ _ e h =>
      have kept : some e ∈ (m'.store.group g).errors := by
        rw [ended.errors]
        cases below with
        | children _ current _ _ =>
          obtain ⟨k, hk⟩ := List.getElem?_of_mem h
          have ne : i ≠ k := by
            rintro rfl
            exact nomatch (orderly.pending i current).symm.trans hk
          exact List.mem_of_getElem? ((List.getElem?_set_ne ne).trans hk)
      exact .inr (.inl (.spoiled kept))
    | other hk left ne covers =>
      refine .inr (.inl (.child hk ?_ (covers_congr covers (nodes _ _ hk) fun p g' pre =>
        ended.same_child owner pre)))
      rw [ended.left]
      exact (List.mem_erase_of_ne ne).mpr left
    | around covers =>
      exact .inr (.inr (covers.congr awaits fun p g' pre => ended.same_below owner pre))

/-- A walk that fails at a dependency is going to fail at the module too. -/
theorem GoodBelow.fails (h : GoodBelow m seen (.linkingChildren r children g i :: st))
    {e : LoaderError} (failed : error = some e) (orderly : IsOrderly (m.store.group g))
    (onward : Onward m m') : m'.Walks seen (.join r children g) st := by
  have current : i ∈ (m.store.group g).left := by
    cases h with
    | children _ current _ _ => exact current
  obtain ⟨good, below⟩ := h.memberEnded owner nodes awaits ended orderly onward fun clean =>
    nomatch failed.symm.trans clean
  have spoiled : some e ∈ (m'.store.group g).errors := by
    have lt : i < (m.store.group g).errors.length :=
      (List.getElem?_eq_some_iff.mp (orderly.pending i current)).1
    rw [ended.errors, ← failed]
    exact List.mem_set lt error
  exact ⟨good, below, fun x _ => .inr (.inl (.spoiled spoiled))⟩

end Ended

/-! ### The walk that is under way -/

/-- The walk that the machine is about is at a place, or comes back from it. -/
def Walking (m : Machine C M) : Prop :=
  match m.control with
  | .link node seen | .linked (.ok (some node)) seen => m.Walks seen node m.stack
  | .linked (.ok none) seen => m.Returns seen m.stack
  | .linked (.error _) seen => m.GoodBelow seen m.stack
  | _ => True

private theorem memberEnded_settle {i : Nat} {outcome : Outcome} {l : Listener}
    (hg : g < m.store.groups.size)
    (same : ∀ g', SameMembers ((m.store.settle g i (some outcome) l).group g')
      (m'.store.group g')) : MemberEnded m m' g i (error? outcome) := by
  have settled : m.store.settle g i (some outcome) l =
      m.store.setGroup g ((m.store.group g).memberEnded i (error? outcome) l) := by
    cases outcome <;> rfl
  rw [settled] at same
  have own := same g
  rw [group_setGroup, if_pos ⟨rfl, hg⟩] at own
  refine ⟨own.left, own.errors, own.size, fun g' ne => ?_⟩
  have other := same g'
  rwa [group_setGroup, if_neg fun h => ne h.1] at other

/-- The dependencies of a module are looked at by a walk that is at the module, or comes back to it
from one of them. -/
theorem Gathers.walks {s : Store C} {st' : List (Frame C)}
    (way : Gathers m.store m.stack m.control r children g seen s st') (sound : m.Sound ρ)
    (walking : m.Walking) (orderly : ∀ g, IsOrderly (m.store.group g)) (onward : Onward m m')
    (same : ∀ g, SameMembers (s.group g) (m'.store.group g)) :
    m'.Walks seen (.join r children g) st' := by
  have control := sound.control
  have owners := sound.store.owners
  unfold Walking at walking
  generalize hst : m.stack = stack at way control walking
  generalize hc : m.control = c at way control walking
  cases way with
  | starts l =>
    obtain ⟨j, path, awaits, fits⟩ := control
    exact walking.congr onward fits awaits fun p g' _ =>
      (sameMembers_setGroup (sameMembers_start _ l) g').trans (same g')
  | @waits _ _ children _ i child _ l =>
    obtain ⟨j, path, x, awaits, left⟩ := control
    obtain ⟨module, fits, _⟩ := left child rfl
    rcases awaits with _ | ⟨frame, awaits⟩
    cases frame with
    | linkingChildren owner nodes member =>
      refine (walking.leave member module).congr onward (.join owner fun k c hk => ?_) awaits
        fun p g' _ => (sameMembers_settle_none _ _ i l g').trans (same g')
      rw [List.getElem?_set] at hk
      split_ifs at hk with hki
      · obtain rfl := Option.some.inj hk
        rw [← hki]
        exact fits
      · exact nodes k c hk
  | ends l =>
    obtain ⟨j, path, x, awaits, _⟩ := control
    rcases awaits with _ | ⟨frame, awaits⟩
    cases frame with
    | linkingChildren owner nodes member =>
      have lt : g < m.store.groups.size := by
        rw [← owners]
        exact (List.getElem?_eq_some_iff.mp owner).1
      exact walking.leave owner nodes awaits (memberEnded_settle lt same) rfl (orderly g) onward
  | fails l =>
    obtain ⟨j, path, x, awaits, _⟩ := control
    rcases awaits with _ | ⟨frame, awaits⟩
    cases frame with
    | linkingChildren owner nodes member =>
      have lt : g < m.store.groups.size := by
        rw [← owners]
        exact (List.getElem?_eq_some_iff.mp owner).1
      exact walking.fails owner nodes awaits (memberEnded_settle lt same) rfl (orderly g) onward

/-- A group that is over and has not failed has no errors. -/
theorem error_of_isOver {x : Group} {e : Option LoaderError} (orderly : IsOrderly x)
    (clean : x.failure? = none) (settled : x.isOver = true) (h : e ∈ x.errors) : e = none := by
  have left : x.left = [] := List.isEmpty_iff.mp settled
  have all : (if x.isMany then x.errors.take (x.left.head?.getD x.size) else x.errors) =
      x.errors := by
    split_ifs
    · rw [left, List.head?_nil, Option.getD_none, ← orderly.errors, List.take_length]
    · rfl
  unfold Group.failure? at clean
  dsimp only at clean
  rw [all] at clean
  exact List.findSome?_eq_none_iff.mp clean e h

/-- A walk that is done with the dependencies of a module has nothing left to do there. -/
theorem Walks.returns (h : m.Walks seen (.join r children g) st)
    (orderly : IsOrderly (m.store.group g)) (clean : (m.store.group g).failure? = none)
    (settled : (m.store.group g).isOver = true) (place : IsAt r st) : m.Returns seen st := by
  obtain ⟨good, below, covers⟩ := h
  have left : ∀ i, i ∉ (m.store.group g).left := by
    intro i hi
    rw [List.isEmpty_iff.mp settled] at hi
    exact nomatch hi
  cases good with
  | join family _ =>
    refine ⟨⟨r, family.looked, place⟩, below, fun x hx => ?_⟩
    rcases covers x hx with settled | covers | covers
    · exact .inl settled
    · cases covers with
      | here =>
        refine .inl (.inr ⟨family.linked, fun d hd => ?_⟩)
        rw [← family.modules] at hd
        obtain ⟨child, mem, rfl⟩ := List.mem_map.mp hd
        obtain ⟨k, hk⟩ := List.getElem?_of_mem mem
        have lt : k < (m.store.group g).errors.length := by
          rw [orderly.errors, family.size]
          exact (List.getElem?_eq_some_iff.mp hk).1
        refine family.ended k child hk (left k) ?_
        have found := List.getElem?_eq_getElem lt
        rw [error_of_isOver orderly clean settled (List.getElem_mem lt)] at found
        exact found
      | spoiled h => exact nomatch error_of_isOver orderly clean settled h
      | child _ hi _ => exact absurd hi (left _)
    · exact .inr covers

end Places

end Machine

end ModuleSystem.Loader
