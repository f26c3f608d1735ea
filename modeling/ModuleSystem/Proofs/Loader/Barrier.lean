import ModuleSystem.Proofs.Loader.Sessions
import ModuleSystem.Proofs.Loader.Walks

/-!
# The barrier between linking and executing

A graph is linked as a whole before any of it is executed. This file follows every walk that links a
graph through the run: the one that is under way, those that wait in activities further out, and
those of jobs that have been put aside. A walk that ends well leaves the module that it started from
ready, and only ready modules are visited by a walk that executes a graph, wait for their turn, or
have their bodies started.

## Main definitions

* `Machine.Barred` : walks that link a graph are in order, and what is executed is ready.
* `Machine.Starts` : the body of a module starts next.

## Main results

* `Machine.Traced.barred` : so it is in every run.
* `Machine.Run.linked_of_starts` : when a body starts, the graph below its module is linked, and a
  walk that executes a graph never comes to a module that is not linked.
-/

namespace ModuleSystem.Loader

variable {C M : Type}

/-! ### Activities on the stack -/

section Awaits

variable {ρ : Roles} {slot : Slot} {frame : Frame C} {above st stack : List (Frame C)} {j : JobId}
  {path : List Nat} {r : RecordId}

/-- What is handed to an activity further in comes from the one above it; the outcome of a job comes
from the activity that advances the job. -/
theorem Awaits.split (h : Awaits ρ slot (above ++ st)) : ∃ slot', Awaits ρ slot' st ∧
    (above = [] ∧ slot' = slot ∨ ∀ j, slot' = .polled j → j ∈ Machine.advanced above) := by
  induction above generalizing slot with
  | nil => exact ⟨slot, h, .inl ⟨rfl, rfl⟩⟩
  | cons frame above ih =>
    rcases h with _ | ⟨fits, below⟩
    obtain ⟨slot', awaits, ⟨rfl, rfl⟩ | inner⟩ := ih below
    · refine ⟨_, awaits, .inr fun j hj => ?_⟩
      subst hj
      cases fits
      exact List.mem_cons_self
    · refine ⟨slot', awaits, .inr fun j hj => ?_⟩
      have mem := inner j hj
      cases frame <;> first | exact mem | exact List.mem_cons_of_mem _ mem

theorem Awaits.of_suffix (h : Awaits ρ slot stack) (below : frame :: st <:+ stack) :
    ∃ slot₁ slot₂, frame.Fits ρ slot₁ slot₂ ∧ Awaits ρ slot₂ st := by
  obtain ⟨above, rfl⟩ := below
  obtain ⟨slot', awaits, _⟩ := h.split
  rcases awaits with _ | ⟨fits, below⟩
  exact ⟨_, _, fits, below⟩

/-- A walk that links a graph is made by the innermost job. -/
theorem Awaits.advanced_of_linked (h : Awaits ρ (.linked j path r) st) :
    ∃ rest, Machine.advanced st = j :: rest := by
  generalize hslot : Slot.linked j path r = slot at h
  induction h generalizing path r with
  | nil => exact nomatch hslot
  | cons fits below ih =>
    subst hslot
    cases fits with
    | linkingGraph _ =>
      obtain ⟨st, rfl, _⟩ := below.of_work
      exact ⟨_, rfl⟩
    | linkingChildren _ _ _ => exact ih rfl

theorem Control.Fits.awaits {s : Store C} {c : Control C} (h : c.Fits ρ s st) :
    ∃ slot, Awaits ρ slot st := by
  cases c with
  | reply _ => exact ⟨_, h.1⟩
  | polled _ | work _ | paused _ | ended _ | visit _ _ =>
    obtain ⟨_, h⟩ := h
    first | exact ⟨_, h.1⟩ | exact ⟨_, h⟩
  | link _ _ | visited _ _ =>
    obtain ⟨_, _, h, _⟩ := h
    exact ⟨_, h⟩
  | linked _ _ =>
    obtain ⟨_, _, _, h, _⟩ := h
    exact ⟨_, h⟩
  | unwind => exact h
  | host _ | serve _ | drain | drained | poll _ => exact ⟨_, h⟩

end Awaits

namespace Machine

open Store

/-! ### Groups that stay as they are -/

section Members

variable {host : Host C M} {ρ ρ' : Roles} {m m' : Machine C M} {j : JobId} {path : List Nat}
  {g : GroupId} {i : Nat} {outcome : Outcome}

/-- A member ends when a job has been polled, or a walk that links a graph comes back. -/
theorem MemberEnds.control {st : List (Frame C)} {c : Control C}
    (cause : MemberEnds g i st c outcome) :
    (∃ o, c = .polled o) ∨ ∃ result seen, c = .linked result seen := by
  cases cause with
  | joined | collected => exact .inl ⟨_, rfl⟩
  | linked | failed => exact .inr ⟨_, _, rfl⟩

/-- A member that ends is one of a group of the innermost job. -/
theorem Sound.owner_of_memberEnds (sound : m.Sound ρ)
    (cause : MemberEnds g i m.stack m.control outcome) :
    ∃ j path rest, ρ.Owns j path g ∧ advanced m.stack = j :: rest := by
  have control := sound.control
  generalize m.stack = stack at cause control ⊢
  generalize m.control = c at cause control
  cases cause with
  | joined =>
    obtain ⟨_, _ | ⟨fits, below⟩, _⟩ := control
    cases fits with
    | joining _ owner _ _ _ =>
      obtain ⟨st, rfl, _⟩ := below.of_work
      exact ⟨_, _, _, owner, rfl⟩
  | linked | failed =>
    obtain ⟨_, _, _, _ | ⟨fits, below⟩, _⟩ := control
    cases fits with
    | linkingChildren owner _ _ =>
      obtain ⟨rest, h⟩ := below.advanced_of_linked
      exact ⟨_, _, rest, owner, h⟩
  | collected =>
    obtain ⟨_, _ | ⟨fits, below⟩, _⟩ := control
    cases fits with
    | executingAfter _ owner _ _ =>
      obtain ⟨st, rfl, _⟩ := below.of_work
      exact ⟨_, _, _, owner, rfl⟩

/-- The groups of a job that is not the innermost one stay as they are. -/
theorem SoundStep.sameMembers (step : SoundStep host ρ ρ' m m') (owner : ρ.Owns j path g)
    (idle : (advanced m.stack).head? ≠ some j) :
    SameMembers (m.store.group g) (m'.store.group g) := by
  have lt : g < m.store.groups.size := by
    rw [← step.sound.store.owners]
    exact (List.getElem?_eq_some_iff.mp owner).1
  cases step.rule.settling lt with
  | same same => exact same
  | ended cause _ _ _ _ =>
    obtain ⟨j', _, rest, owner', head⟩ := step.sound.owner_of_memberEnds cause
    obtain ⟨rfl, _⟩ := Prod.mk.inj (Option.some.inj (owner'.symm.trans owner))
    rw [head] at idle
    exact absurd rfl idle

/-- Groups stay as they are in a step in which no member ends. -/
theorem SoundStep.sameMembers_of_not_ends (step : SoundStep host ρ ρ' m m')
    (owner : ρ.Owns j path g)
    (quiet : ∀ i outcome, ¬ MemberEnds g i m.stack m.control outcome) :
    SameMembers (m.store.group g) (m'.store.group g) := by
  have lt : g < m.store.groups.size := by
    rw [← step.sound.store.owners]
    exact (List.getElem?_eq_some_iff.mp owner).1
  cases step.rule.settling lt with
  | same same => exact same
  | ended cause _ _ _ _ => exact absurd cause (quiet _ _)

/-- The members of every group are in order, in every run. -/
theorem Traced.orderly {trace : List (Machine C M)} (h : Traced host ρ (m :: trace)) (g : GroupId) :
    IsOrderly (m.store.group g) := by
  refine h.invariant (P := fun _ m => IsOrderly (m.store.group g))
    (fun _ _ _ => isOrderly_ofSize 0) (fun {_ _ m m' _} _ step orderly => ?_)
    fun _ pause orderly => (pause.change.kept.members g).orderly orderly
  rcases Nat.lt_or_ge g m.store.groups.size with known | new
  · cases step.rule.settling known with
    | same same => exact same.orderly orderly
    | ended _ _ _ _ keeps => exact keeps orderly
  · obtain ⟨n, group⟩ := step.rule.group_new new
    rw [group]
    exact isOrderly_ofSize n

end Members

/-! ### Moves of a walk -/

section Moves

variable {ρ : Roles} {m : Machine C M} {seen : List RecordId} {node : LinkNode}
  {st : List (Frame C)} {j : JobId} {path : List Nat} {r x : RecordId}

theorem Onward.refl (m : Machine C M) : Onward m m :=
  ⟨fun _ h => h, fun _ _ => rfl⟩

/-- What is left around a place goes on to agree when the walk looks at one more module. -/
theorem GoodBelow.look (h : GoodBelow m seen st) (awaits : Awaits ρ (.linked j path r) st)
    (x : RecordId) : GoodBelow m (x :: seen) st :=
  h.congr (.refl m) (List.subset_cons_self x seen) awaits fun _ _ _ _ => .refl _

/-- Nothing covers a module at a place that has not been looked at. -/
theorem Walks.settled_of_start (h : m.Walks seen (.start r) st) (hx : x ∈ seen) :
    m.Settled seen x ∨ CoversBelow m.store x st := by
  rcases h.covers x hx with settled | covers | covers
  · exact .inl settled
  · exact nomatch covers
  · exact .inr covers

/-- A walk turns back from a module that it has looked at. -/
theorem Walks.turnBack (h : m.Walks seen (.start r) st) (hr : r ∈ seen) (place : IsAt r st) :
    m.Returns seen st :=
  ⟨⟨r, hr, place⟩, h.below, fun _ hx => h.settled_of_start hx⟩

/-- A walk turns back from a module that is ready. -/
theorem Walks.turnBack_of_ready (h : m.Walks seen (.start r) st) (ready : m.Ready r)
    (awaits : Awaits ρ (.linked j path r) st) : m.Returns (r :: seen) st := by
  refine ⟨⟨r, List.mem_cons_self, Awaits.isAt awaits⟩, h.below.look awaits r, fun x hx => ?_⟩
  rcases List.mem_cons.mp hx with rfl | hx
  · exact .inl (.inl ready)
  · exact (h.settled_of_start hx).imp_left
      ((Onward.refl m).settled (List.subset_cons_self r seen))

/-- A walk comes to a module that is to be linked. -/
theorem Walks.look (h : m.Walks seen (.start r) st) (awaits : Awaits ρ (.linked j path r) st) :
    m.Walks (r :: seen) (.awaitLinked r) st := by
  refine ⟨.awaitLinked List.mem_cons_self, h.below.look awaits r, fun x hx => ?_⟩
  rcases List.mem_cons.mp hx with rfl | hx
  · exact .inr (.inl .awaitLinked)
  · exact (h.settled_of_start hx).imp
      ((Onward.refl m).settled (List.subset_cons_self r seen)) .inr

/-- A walk goes on to the dependencies of a module that is linked. -/
theorem Walks.fork {g : GroupId} (h : m.Walks seen (.awaitLinked r) st) (linked : m.Linked r)
    (group : m.store.group g = .ofSize (m.store.record r).dependencies.length) :
    m.Walks seen (.join r ((m.store.record r).dependencies.map .start) g) st := by
  have looked : r ∈ seen := by
    cases h.good with
    | awaitLinked h => exact h
  have start : ∀ {i : Nat} {child : LinkNode},
      ((m.store.record r).dependencies.map LinkNode.start)[i]? = some child →
        ∃ d, (m.store.record r).dependencies[i]? = some d ∧ child = .start d := by
    intro i child hi
    rw [List.getElem?_map] at hi
    obtain ⟨d, hd, rfl⟩ := Option.map_eq_some_iff.mp hi
    exact ⟨d, hd, rfl⟩
  refine ⟨.join ⟨looked, linked, ?_, ?_, fun i child hi left _ => ?_⟩ fun i child hi _ => ?_,
    h.below, fun x hx => ?_⟩
  · rw [List.map_map]
    exact List.map_id _
  · rw [group, List.length_map]
    rfl
  · obtain ⟨d, hd, _⟩ := start hi
    rw [group] at left
    exact absurd (List.mem_range.mpr (List.getElem?_eq_some_iff.mp hd).1) left
  · obtain ⟨d, _, rfl⟩ := start hi
    exact .start
  · rcases h.covers x hx with settled | covers | covers
    · exact .inl settled
    · cases covers
      exact .inr (.inl .here)
    · exact .inr (.inr covers)

/-- A walk that is at the place where it started is the same above any activities. -/
theorem Walks.of_graph {st' : List (Frame C)} (h : m.Walks seen node (.linkingGraph r :: st)) :
    m.Walks seen node (.linkingGraph r :: st') := by
  refine ⟨h.good, .graph, fun x hx => ?_⟩
  rcases h.covers x hx with settled | covers | covers
  · exact .inl settled
  · exact .inr (.inl covers)
  · exact nomatch covers

/-- The module that a walk started from is ready when the walk comes back to it. -/
theorem Returns.ready (h : m.Returns seen (.linkingGraph r :: st)) : m.Ready r := by
  obtain ⟨⟨x, hx, place⟩, _, covers⟩ := h
  cases place
  refine ready_of_settled (fun y hy => ?_) hx
  rcases covers y hy with settled | covers
  · exact settled
  · exact nomatch covers

end Moves

/-! ### The barrier -/

/-- Walks that link a graph are in order, and what is executed is ready. -/
structure Barred (ρ : Roles) (m : Machine C M) : Prop where
  walking : m.Walking
  left : ∀ j r node seen, m.Has j (.linkGraph r node seen) →
    m.Walks seen node [.linkingGraph r]
  paused : ∀ r seen st, .linkingNode r seen :: st <:+ m.stack → m.Walks seen (.awaitLinked r) st
  turned : ∀ r, (m.store.record r).state = .executing ∨ (m.store.record r).state = .executed →
    m.Ready r
  visit : ∀ r seen, m.control = .visit r seen → m.Ready r
  visiting : ∀ r rest jobs, .visiting r rest jobs ∈ m.stack →
    m.Ready r ∧ ∀ d ∈ rest, m.Ready d
  executes : ∀ j r, ρ.Is j (.execute r) → m.Ready r

section Barred

variable {host : Host C M} {ρ ρ' : Roles} {m m' : Machine C M} {trace : List (Machine C M)}
  {r : RecordId} {st : List (Frame C)} {s : Store C} {jobs : List JobId} {seen : List RecordId}
  {j : JobId}

/-- A module whose turn is to come is ready, and so are its dependencies. -/
theorem Barred.of_turn {rest : List RecordId} (barred : m.Barred ρ)
    (way : Turn m.store m.stack m.control r rest jobs seen st) :
    m.Ready r ∧ ∀ d ∈ rest, m.Ready d := by
  generalize hst : m.stack = stack at way
  generalize hc : m.control = c at way
  cases way with
  | first _ _ _ =>
    have ready := barred.visit r _ hc
    exact ⟨ready, fun d hd => ready.dependency hd⟩
  | next => exact barred.visiting r rest _ (by rw [hst]; exact List.mem_cons_self)

/-- A module whose jobs have ended is ready. -/
theorem Barred.of_collects {g : GroupId} (barred : m.Barred ρ) (sound : m.Sound ρ)
    (way : Collects m.store m.stack m.control r jobs g s st) : m.Ready r := by
  obtain ⟨j, _, is, _⟩ := way.awaits sound.control
  exact barred.executes j r is

/-- A walk that waits for the linking of a module, at whatever depth, goes on to be in order: no
member of its groups can end meanwhile. -/
theorem Barred.resume (barred : m.Barred ρ) (step : SoundStep host ρ ρ' m m')
    (below : .linkingNode r seen :: st <:+ m.stack) :
    m'.Walks seen (.awaitLinked r) st ∧ ∃ i j path, ρ.Links i r ∧ Awaits ρ (.linked j path r) st := by
  obtain ⟨above, stack⟩ := below
  obtain ⟨slot, awaits⟩ := step.sound.control.awaits
  rw [← stack] at awaits
  obtain ⟨slot', awaits, place⟩ := awaits.split
  rcases awaits with _ | ⟨fits, awaits⟩
  cases fits with
  | @linkingNode j i path _ _ links =>
    refine ⟨?_, i, j, path, links, awaits⟩
    have known : ρ.Knows r :=
      step.sound.store.knows_of_lt (step.sound.store.linking_eq links).1
    refine (barred.paused r seen st ⟨above, stack⟩).congr step.onward (.awaitLinked known) awaits
      fun p g owner => ?_
    by_cases quiet : ∀ k outcome, ¬ MemberEnds g k m.stack m.control outcome
    · exact step.sameMembers_of_not_ends owner quiet
    · refine step.sameMembers owner fun head => ?_
      obtain ⟨rest, inner⟩ := awaits.advanced_of_linked
      have nodup := step.sound.nodup
      have advances : advanced m.stack = advanced above ++ advanced st := by
        rw [← stack, advanced_append]
        rfl
      rw [advances] at nodup head
      rcases place with ⟨rfl, _⟩ | polled
      · rw [← stack] at quiet
        exact quiet fun _ _ => nofun
      · have mem := polled i rfl
        cases hi : advanced above with
        | nil =>
          rw [hi] at mem
          exact nomatch mem
        | cons j' rest' =>
          rw [hi] at head nodup
          obtain rfl := Option.some.inj head
          rw [inner] at nodup
          exact (List.nodup_cons.mp nodup).1 (List.mem_append_right _ List.mem_cons_self)

/-- A walk that has been put aside goes on to be in order. -/
theorem Walks.congr_left {node : LinkNode} (h : m.Walks seen node [.linkingGraph r])
    (fits : (Work.linkGraph r node seen : Work C).Fits ρ j) (onward : Onward m m')
    (same : ∀ p g, ρ.Owns j p g → SameMembers (m.store.group g) (m'.store.group g)) :
    m'.Walks seen node [.linkingGraph r] := by
  cases fits with
  | linkGraph is fits =>
    have awaits : Awaits ρ (.work j) ([.advancing j, .importing node.module] : List (Frame C)) :=
      .cons .advancing (.cons (.importing is) .nil)
    exact (h.of_graph.congr onward fits (.cons (.linkingGraph is) awaits) same).of_graph

private theorem Barred.walking_move {s : Store C} {memory : M} {c c' : Control C}
    {st' : List (Frame C)} (barred : Barred ρ (⟨s, memory, st, c⟩ : Machine C M))
    (move : Move s st c st' c')
    (step : SoundStep host ρ ρ' ⟨s, memory, st, c⟩ ⟨s, memory, st', c'⟩) :
    (⟨s, memory, st', c'⟩ : Machine C M).Walking := by
  have onward := step.onward
  have walking := barred.walking
  have sound := step.sound
  have control := sound.control
  have same : ∀ (p : List Nat) (g : GroupId), SameMembers (s.group g) (s.group g) :=
    fun _ _ => .refl _
  cases move
  case linkGraph r node seen =>
    obtain ⟨j, st', stack, has⟩ := sound.has_of_work rfl
    obtain ⟨i, awaits, fits⟩ := control
    have walks := barred.left j r node seen has
    cases fits with
    | linkGraph is fits =>
      exact walks.of_graph.congr onward fits (.cons (.linkingGraph is) awaits) fun p g _ => same p g
  case nodeSeen r seen h =>
    obtain ⟨j, path, awaits, fits⟩ := control
    exact (Walks.congr walking onward fits awaits fun p g _ => same p g).turnBack h
      (Awaits.isAt awaits)
  case nodeExecuted r seen fresh alive h =>
    obtain ⟨j, path, awaits, fits⟩ := control
    exact (Walks.congr walking onward fits awaits fun p g _ => same p g).turnBack_of_ready
      (onward.ready (barred.turned r (.inr h))) awaits
  case nodeOrphaned r seen _ _ | nodeFailed r _ seen _ _ _ =>
    obtain ⟨j, path, awaits, fits⟩ := control
    exact (Walks.congr walking onward fits awaits fun p g _ => same p g).below.look awaits r
  case nodeEntered r seen _ _ _ _ =>
    obtain ⟨j, path, awaits, fits⟩ := control
    exact (Walks.congr walking onward fits awaits fun p g _ => same p g).look awaits
  case nodeWaits r seen => exact (barred.resume step (List.suffix_refl _)).1
  case nodeFails | nodeLeft => exact (barred.resume step (List.suffix_refl _)).1.below
  all_goals trivial

/-- The members of the group of a walk are in order when one of them has ended. -/
theorem Gathers.orderly {s s₁ : Store C} {st st' : List (Frame C)} {c : Control C}
    {children : List LinkNode} {g : GroupId} (way : Gathers s st c r children g seen s₁ st')
    (orderly : IsOrderly (s.group g)) : IsOrderly (s₁.group g) := by
  have settling : Settling s st c s₁ g := way.settling
  cases settling with
  | same same => exact same.orderly orderly
  | ended _ _ _ _ keeps => exact keeps orderly

private theorem Barred.walking_step (barred : m.Barred ρ) (step : SoundStep host ρ ρ' m m')
    (orderly : ∀ g, IsOrderly (m.store.group g)) : m'.Walking := by
  have onward := step.onward
  have gathered : ∀ {r children g seen st s₁ m₁},
      Gathers m.store m.stack m.control r children g seen s₁ st → Onward m m₁ →
      (∀ g, SameMembers (s₁.group g) (m₁.store.group g)) →
      m₁.Walks seen (.join r children g) st := fun way onward same =>
    way.walks step.sound barred.walking orderly onward same
  have rule := step.rule
  cases rule
  case move move => exact barred.walking_move move step
  case nodeLinked s memory st r seen alive =>
    obtain ⟨walks, _⟩ := barred.resume step (List.suffix_refl _)
    obtain ⟨i, _ | ⟨fits, _⟩, finished⟩ := step.sound.control
    cases fits with
    | linkingNode links =>
      obtain ⟨hr, linking⟩ := step.sound.store.linking_eq links
      have linked : Linked (⟨s, memory, .linkingNode r seen :: st, .polled (some (.ok ()))⟩ :
          Machine C M) r := ⟨hr, .inl (linking ▸ finished _ rfl)⟩
      exact walks.fork (onward.linked r linked) (by rw [group_newGroup, if_pos rfl]; rfl)
  case gathers s _ _ _ r children g seen s₁ st child i g' way clean h =>
    have left : i ∈ (s₁.group g).left := mem_left_of_next? (way.orderly (orderly g)) h
    have members := sameMembers_setGroup (sameMembers_next? h)
    refine (gathered way onward members).enter (getElem?_of_next? h) ?_
    rw [(members g).left]
    exact left
  case gatherWaits way _ _ _ => exact gathered way onward fun _ => .refl _
  case gathered g _ s₁ st way clean done =>
    obtain ⟨j, path, awaits, _⟩ := way.awaits step.sound.control
    exact (gathered way onward fun _ => .refl _).returns (way.orderly (orderly g)) clean done
      (Awaits.isAt awaits)
  case gatherOrphaned way _ _ => exact (gathered way onward fun _ => .refl _).below
  case gatherFails way _ _ =>
    exact (gathered way onward fun g => by rw [fail_same.2.2.1]; exact .refl _).below
  case publishes way => 
    rcases way.control with h | h <;> rw [Walking, h] <;> trivial
  case handsOver after => 
    rcases after.control with h | h <;> rw [Walking, h] <;> trivial
  all_goals trivial

private theorem Barred.left_step {node : LinkNode} (barred : m.Barred ρ)
    (step : SoundStep host ρ ρ' m m') (h : m'.Has j (.linkGraph r node seen)) :
    m'.Walks seen node [.linkingGraph r] := by
  rcases step.rule.comes h with has | ⟨hj, state⟩ | ⟨_, continues⟩
  · refine (barred.left j r node seen has).congr_left (step.sound.fits_of_has has) step.onward
      fun p g owner => ?_
    -- a job that ends a member is neither waiting nor about to take up its work
    cases has with
    | waits state =>
      refine step.sameMembers owner fun head => step.sound.not_waiting ?_ state
      exact List.mem_of_head? head
    | next _ hc | paused _ hc =>
      refine step.sameMembers_of_not_ends owner fun i outcome cause => ?_
      rcases cause.control with ⟨_, h⟩ | ⟨_, _, h⟩ <;> exact nomatch hc.symm.trans h
  · cases step.newJob hj state with
    | graph _ _ _ state' =>
      cases state.symm.trans state'
      exact ⟨.start, .graph, nofun⟩
    | instantiate _ _ _ state' | link _ _ _ state' | deferred _ _ _ state' _ _
        | turn _ _ _ _ state' _ | ready _ _ _ _ state' => exact nomatch state.symm.trans state'
  · cases continues with
    | graphWaits stack hc =>
      have walking := barred.walking
      rw [Walking, hc, stack] at walking
      have control := step.sound.control
      rw [hc, stack] at control
      obtain ⟨i, path, _, awaits, left⟩ := control
      obtain ⟨rfl, fits, _⟩ := left node rfl
      refine (Walks.congr walking step.onward fits awaits fun p g owner => ?_).of_graph
      refine step.sameMembers_of_not_ends owner fun i outcome cause => ?_
      rw [hc, stack] at cause
      cases cause

private theorem Barred.turned_step (barred : m.Barred ρ) (step : SoundStep host ρ ρ' m m')
    (staged' : m'.Staged ρ')
    (h : (m'.store.record r).state = .executing ∨ (m'.store.record r).state = .executed) :
    m'.Ready r := by
  rcases Nat.lt_or_ge r m.store.records.size with hr | hr
  · have excluded : ∀ {state}, (m'.store.record r).state = state →
        state ≠ .executing → state ≠ .executed → m'.Ready r := by
      intro state hs h₁ h₂
      rw [hs] at h
      exact absurd h (not_or.mpr ⟨h₁, h₂⟩)
    have control := step.sound.control
    cases (step.rule.recordChange hr).transition with
    | stays state => exact step.onward.ready (barred.turned r (state ▸ h))
    | fails _ _ state | hooked _ _ _ state | attached _ _ _ state =>
      exact excluded state nofun nofun
    | comes way _ _ _ _ _ => exact step.onward.ready (barred.of_turn way).1
    | collected way _ _ _ _ => exact step.onward.ready (barred.of_collects step.sound way)
    | ended stack hc _ _ _ _ =>
      rw [stack, hc] at control
      obtain _ | ⟨fits, _⟩ := control
      cases fits with
      | body is => exact step.onward.ready (barred.executes _ r is)
    | bodyless hc _ _ _ _ =>
      rw [hc] at control
      obtain ⟨j, _, fits⟩ := control
      cases fits with
      | runBody is => exact step.onward.ready (barred.executes j r is)
  · -- a module that has been defined has no dependencies
    have linked : m'.Linked r := staged'.linked r (by rcases h with h | h <;> rw [h] <;> trivial)
    cases step.rule.makes.newRecord hr linked.1 with
    | made record _ _ _ | defined _ record _ _ => exact ready_of_nil linked (by rw [record])

private theorem Barred.visit_step (barred : m.Barred ρ) (step : SoundStep host ρ ρ' m m')
    (next : m'.control = .visit r seen) : m'.Ready r := by
  have onward := step.onward
  have rule := step.rule
  cases rule
  case move move =>
    cases move
    case graphLinked seen _ =>
      cases next
      exact onward.ready (Returns.ready barred.walking)
    case turnVisits way =>
      cases next
      exact onward.ready ((barred.of_turn way).2 r List.mem_cons_self)
    all_goals exact nomatch next
  case publishes way => rcases way.control with h | h <;> exact nomatch h.symm.trans next
  case handsOver after => rcases after.control with h | h <;> exact nomatch h.symm.trans next
  all_goals exact nomatch next

theorem Barred.step (barred : m.Barred ρ) (step : SoundStep host ρ ρ' m m')
    (staged' : m'.Staged ρ') (orderly : ∀ g, IsOrderly (m.store.group g)) : m'.Barred ρ' where
  walking := barred.walking_step step orderly
  left _ _ _ _ h := barred.left_step step h
  paused r seen st below := by
    rcases step.rule.started below with below | ⟨pushed, stack | may⟩
    · exact (barred.resume step below).1
    · cases pushed with
      | plain h => exact h.elim
      | linkingNode hc stack' =>
        obtain rfl : m.stack = st := (List.cons.inj (stack'.symm.trans stack)).2
        have walking := barred.walking
        have control := step.sound.control
        rw [Walking, hc] at walking
        rw [hc] at control
        obtain ⟨j, path, awaits, fits⟩ := control
        refine walking.congr step.onward fits awaits fun p g owner => ?_
        refine step.sameMembers_of_not_ends owner fun i outcome cause => ?_
        rcases cause.control with ⟨_, h⟩ | ⟨_, _, h⟩ <;> exact nomatch hc.symm.trans h
    · exact may.elim
  turned r h := barred.turned_step step staged' h
  visit r seen h := barred.visit_step step h
  visiting r rest jobs h := by
    rcases step.rule.pushed h with h | pushed
    · obtain ⟨ready, others⟩ := barred.visiting r rest jobs h
      exact ⟨step.onward.ready ready, fun d hd => step.onward.ready (others d hd)⟩
    · cases pushed with
      | plain h => exact h.elim
      | visiting way _ =>
        obtain ⟨ready, others⟩ := barred.of_turn way
        exact ⟨step.onward.ready ready, fun d hd =>
          step.onward.ready (others d (List.mem_cons_of_mem _ hd))⟩
  executes j r h := by
    rcases step.executes_cases h with is | ⟨_, _, _, _, way, _⟩
    · exact step.onward.ready (barred.executes j r is)
    · exact step.onward.ready (barred.of_turn way).1

theorem Barred.pause (barred : m.Barred ρ) (pause : SoundPause ρ m m') : m'.Barred ρ := by
  have onward := pause.onward
  have empty : ∀ frame, frame ∉ m'.stack := by simp [pause.stack]
  constructor
  · rcases pause.control with ⟨_, hc⟩ | ⟨_, hc⟩ <;> rw [Walking, hc] <;> trivial
  · intro j r node seen h
    exact (barred.left j r node seen (pause.has h)).congr_left
      (pause.sound.fits_of_has (pause.has h)) onward fun p g _ => pause.change.kept.members g
  · exact fun r seen st below => absurd (below.subset List.mem_cons_self) (empty _)
  · intro r h
    rw [pause.change.kept.record] at h
    exact onward.ready (barred.turned r h)
  · intro r seen hc
    rcases pause.control with ⟨_, h⟩ | ⟨_, h⟩ <;> exact nomatch h.symm.trans hc
  · exact fun _ _ _ h => absurd h (empty _)
  · exact fun j r is => onward.ready (barred.executes j r is)

/-- Walks that link a graph are in order, and what is executed is ready, in every run. -/
theorem Traced.barred (h : Traced host ρ (m :: trace)) : m.Barred ρ := by
  refine h.invariant (fun base resolver memory => ?_)
    (fun traced step barred => barred.step step (Traced.step traced step).staged traced.orderly)
    fun _ pause barred => barred.pause pause
  refine ⟨trivial, fun _ _ _ _ h => absurd h not_has_start, fun _ _ _ below => ?_, fun r h => ?_,
    nofun, nofun, nofun⟩
  · exact nomatch List.suffix_nil.mp below
  · rw [record_start] at h
    exact nomatch h

end Barred

/-! ### Bodies that start -/

/-- The module whose body is started next. -/
def starting? (m : Machine C M) : Option RecordId :=
  match m.control with
  | .work (.runBody r (some _)) => some r
  | _ => none

/-- The module that a walk which executes a graph comes to next. -/
def visiting? (m : Machine C M) : Option RecordId :=
  match m.control with
  | .visit r _ => some r
  | _ => none

section Starts

variable {host : Host C M} {m : Machine C M} {trace : List (Machine C M)} {r : RecordId}

theorem starting?_eq_some :
    m.starting? = some r ↔ ∃ code, m.control = .work (.runBody r (some code)) := by
  unfold starting?
  constructor
  · intro h
    split at h
    · rename_i r' code hc
      obtain rfl := Option.some.inj h
      exact ⟨code, hc⟩
    · exact nomatch h
  · rintro ⟨code, hc⟩
    rw [hc]

theorem visiting?_eq_some : m.visiting? = some r ↔ ∃ seen, m.control = .visit r seen := by
  unfold visiting?
  constructor
  · intro h
    split at h
    · rename_i r' seen hc
      obtain rfl := Option.some.inj h
      exact ⟨seen, hc⟩
    · exact nomatch h
  · rintro ⟨seen, hc⟩
    rw [hc]

/-- Whenever the body of a module is started, every module that it reaches along dependencies has
been linked without an error, or has been defined. And a walk that executes a graph never comes to a
module that is not linked yet. -/
theorem Run.linked_of_starting (h : Run host (m :: trace)) :
    (∀ r, m.starting? = some r → ∀ x, m.Reaches r x → x < m.store.records.size ∧
      (m.store.job (m.store.record x).linking).state = .finished (.ok ())) ∧
    ∀ r, m.visiting? = some r → (m.store.record r).state ≠ .unlinked ∧
      (m.store.record r).state ≠ .instantiating := by
  obtain ⟨ρ, traced⟩ := h.exists_roles
  have barred := traced.barred
  constructor
  · intro r starts x reaches
    obtain ⟨code, hc⟩ := starting?_eq_some.mp starts
    obtain ⟨j, _, _, has⟩ := traced.sound.has_of_work hc
    have ready : m.Ready r := by
      cases traced.sound.fits_of_has has with
      | runBody is => exact barred.executes j r is
    obtain ⟨known, finished | ⟨hc', _⟩⟩ := ready x reaches
    · exact ⟨known, finished⟩
    · exact nomatch hc.symm.trans hc'
  · intro r visits
    obtain ⟨seen, hc⟩ := visiting?_eq_some.mp visits
    rcases traced.staged.entered r (barred.visit r seen hc).linked with linked | ⟨error, failed⟩
    · constructor <;> intro state <;> rw [state] at linked <;> exact linked
    · constructor <;> intro state <;> exact nomatch failed.symm.trans state

end Starts

/-- Two modules that depend on each other. -/
def mutualModules : List (String × Script.Program) :=
  [("x:/a", { dependencies := [("x:/b", none)], body := some (.steps []) }),
   ("x:/b", { dependencies := [("x:/a", none)], body := some (.steps []) })]

theorem Run.linked_of_starting_mutual : ∃ m m' : Machine Script.Code Script.Memory,
    m.starting? = some 1 ∧ m.Reaches 1 0 ∧
    (m.store.job (m.store.record 0).linking).state = .finished (.ok ()) ∧
    m'.visiting? = some 1 ∧ (m'.store.record 1).state ≠ .unlinked := by
  have run := Run.scripted mutualModules "x:/a" [.request (.poll (.waiting 0 2))]
  have starts : (scriptedEnd mutualModules "x:/a" [.request (.poll (.waiting 0 2))] 44).starting? =
      some 1 := by decide +kernel
  have visits : (scriptedEnd mutualModules "x:/a" [.request (.poll (.waiting 0 2))] 40).visiting? =
      some 1 := by decide +kernel
  have reaches : (scriptedEnd mutualModules "x:/a" [.request (.poll (.waiting 0 2))] 44).Reaches
      1 0 := .single (by decide +kernel)
  exact ⟨_, _, starts, reaches, ((Run.linked_of_starting (run 44)).1 1 starts 0 reaches).2, visits,
    ((Run.linked_of_starting (run 40)).2 1 visits).1⟩

end Machine

end ModuleSystem.Loader
