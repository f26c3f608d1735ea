import ModuleSystem.Proofs.Loader.Living
import ModuleSystem.Proofs.Loader.Walks

/-!
# Descents of walks

A walk that executes a graph goes down from a module to its dependencies, in whatever way host code
that it starts goes on meanwhile. So at every place of the walk there is a path along dependencies
back to the module where it started, and the jobs that a module on this path will have to wait for
are those of dependencies of it (`Machine.Descends`). As the walk started at a living module, it
visits living ones only.

## Main definitions

* `Machine.Descends` : a walk that executes a graph has come down to a module.
* `Machine.Descending` : all walks that are under way have.

## Main results

* `Machine.Traced.descending` : so it is in every run.
-/

namespace ModuleSystem.Loader

variable {C M : Type}

namespace Machine

open Store

/-- A walk that executes a graph has come down to a module, from each module on the way to one of
its dependencies. -/
inductive Descends (ρ : Roles) (m : Machine C M) : RecordId → List (Frame C) → Prop
  | root {x st} (alive : m.store.isAlive x = true) : Descends ρ m x (.executingGraph :: st)
  | dependency {x r rest jobs st} (linked : m.Linked r)
      (edge : x ∈ (m.store.record r).dependencies) (left : rest ⊆ (m.store.record r).dependencies)
      (waits : ∀ i ∈ jobs, ∃ d ∈ (m.store.record r).dependencies, ρ.Is i (.execute d))
      (below : Descends ρ m r st) : Descends ρ m x (.visiting r rest jobs :: st)

/-- All walks that execute graphs have come down to where they are. -/
structure Descending (ρ : Roles) (m : Machine C M) : Prop where
  visit : ∀ x seen, m.control = .visit x seen → Descends ρ m x m.stack
  visited : ∀ result seen, m.control = .visited result seen →
    ∃ x, Descends ρ m x m.stack ∧ ∀ i, result = .ok (some i) → ρ.Is i (.execute x)
  executing : ∀ r i seen st, .executing r i seen :: st <:+ m.stack → Descends ρ m r st

section Descends

variable {host : Host C M} {ρ ρ' : Roles} {m m' : Machine C M} {trace : List (Machine C M)}
  {r x : RecordId} {i : JobId} {st : List (Frame C)} {rest : List RecordId} {jobs : List JobId}
  {seen : List RecordId}

/-- The modules that a walk visits are living. -/
theorem Descends.alive (h : Descends ρ m x st) (living : m.Living) : m.store.isAlive x = true := by
  induction h with
  | root alive => exact alive
  | dependency _ edge _ _ _ ih => exact living.dependencies _ ih _ edge

/-- The dependencies of linked modules stay the same, and so does the way that a walk has taken. -/
theorem Descends.step (h : Descends ρ m x st) (step : SoundStep host ρ ρ' m m') :
    Descends ρ' m' x st := by
  induction h with
  | root alive => exact .root (by rwa [step.rule.isAlive])
  | @dependency x r _ _ _ linked edge left waits _ ih =>
    have same := step.onward.dependencies r linked
    refine .dependency (step.linked linked) (by rwa [same]) (by rwa [same]) (fun i hi => ?_) ih
    obtain ⟨d, hd, is⟩ := waits i hi
    exact ⟨d, by rwa [same], is.mono step.follow.le⟩

/-- A walk that turns to a module has come down to it. -/
theorem Descending.of_turn (descending : m.Descending ρ)
    (way : Turn m.store m.stack m.control r rest jobs seen st) :
    Descends ρ m r st ∧ rest ⊆ (m.store.record r).dependencies ∧
      ∀ i ∈ jobs, ∃ d ∈ (m.store.record r).dependencies, ρ.Is i (.execute d) := by
  generalize hst : m.stack = stack at way
  generalize hc : m.control = c at way
  cases way with
  | first fresh linked idle =>
    exact ⟨hst ▸ descending.visit r _ hc, fun _ h => h, fun _ h => absurd h List.not_mem_nil⟩
  | @next r rest jobs job seen =>
    obtain ⟨x, descends, is⟩ := descending.visited _ _ hc
    rw [hst] at descends
    cases descends with
    | dependency _ edge left waits below =>
      refine ⟨below, left, fun i hi => ?_⟩
      rcases List.mem_append.mp hi with hi | hi
      · exact waits i hi
      · exact ⟨x, edge, is i (by rw [Option.mem_toList.mp hi])⟩

private theorem Descending.visit_step (descending : m.Descending ρ) (staged : m.Staged ρ)
    (step : SoundStep host ρ ρ' m m') (next : m'.control = .visit x seen) :
    Descends ρ' m' x m'.stack := by
  have rule := step.rule
  cases rule
  case move move =>
    cases move
    case graphLinked alive =>
      cases next
      exact .root alive
    case turnVisits way =>
      cases next
      obtain ⟨below, left, waits⟩ := descending.of_turn way
      exact Descends.step (.dependency (staged.of_turn way) (left List.mem_cons_self)
        (fun _ h => left (List.mem_cons_of_mem _ h)) waits below) step
    all_goals exact nomatch next
  case publishes way => rcases way.control with h | h <;> exact nomatch h.symm.trans next
  case handsOver after => rcases after.control with h | h <;> exact nomatch h.symm.trans next
  all_goals exact nomatch next

private theorem Descending.visited_step (descending : m.Descending ρ)
    (step : SoundStep host ρ ρ' m m') {result : Except LoaderError (Option JobId)}
    (next : m'.control = .visited result seen) :
    ∃ x, Descends ρ' m' x m'.stack ∧ ∀ i, result = .ok (some i) → ρ'.Is i (.execute x) := by
  have rule := step.rule
  cases rule
  case move move =>
    cases move
    case visitSeen x _ _ | visitExecuting x _ _ _ =>
      cases next
      exact ⟨x, (descending.visit x _ rfl).step step, fun i hi =>
        (step.sound.store.evaluation x i (Except.ok.inj hi)).mono step.follow.le⟩
    case visitWaiting x job _ _ _ waiting =>
      cases next
      refine ⟨x, (descending.visit x _ rfl).step step, ?_⟩
      rintro _ ⟨⟩
      exact (step.sound.store.evaluation x job waiting).mono step.follow.le
    case visitFailed x _ _ _ _ | visitExecuted x _ _ _ | visitUnlinked x _ _ _ =>
      cases next
      exact ⟨x, (descending.visit x _ rfl).step step, nofun⟩
    case attempted r _ _ | attemptFailed r _ _ _ =>
      cases next
      exact ⟨r, (descending.executing r _ _ _ (List.suffix_refl _)).step step, nofun⟩
    all_goals exact nomatch next
  case publishes way => rcases way.control with h | h <;> exact nomatch h.symm.trans next
  case handsOver after => rcases after.control with h | h <;> exact nomatch h.symm.trans next
  case turnDeferred s _ _ _ r jobs _ _ way _ =>
    cases next
    refine ⟨r, (descending.of_turn way).1.step step, ?_⟩
    rintro _ ⟨⟩
    exact step.follow.is_of_fresh (w := .executeAfter r jobs s.groups.size)
      ⟨Nat.le_refl _, by simp, by simp [state_job_newJob]⟩ rfl
  case attemptWaits r _ _ =>
    cases next
    have below := descending.executing r _ _ _ (List.suffix_refl _)
    refine ⟨r, below.step step, ?_⟩
    rintro _ ⟨⟩
    obtain ⟨_, _ | ⟨fits, _⟩, _⟩ := step.sound.control
    cases fits with
    | executing is => exact is.mono step.follow.le
  case visitFails r _ _ _ _ =>
    cases next
    obtain ⟨x, descends, _⟩ := descending.visited _ _ rfl
    cases descends with
    | dependency _ _ _ _ below => exact ⟨r, below.step step, nofun⟩
  all_goals exact nomatch next

private theorem Descending.executing_step (descending : m.Descending ρ)
    (step : SoundStep host ρ ρ' m m') (below' : .executing r i seen :: st <:+ m'.stack) :
    Descends ρ' m' r st := by
  rcases step.rule.started below' with below | ⟨pushed, stack | may⟩
  · exact (descending.executing r i seen st below).step step
  · cases pushed with
    | plain h => exact h.elim
    | executing way stack' _ =>
      cases stack.symm.trans stack'
      exact (descending.of_turn way).1.step step
  · exact may.elim

theorem Descending.step (descending : m.Descending ρ) (staged : m.Staged ρ)
    (step : SoundStep host ρ ρ' m m') : m'.Descending ρ' where
  visit _ _ next := descending.visit_step staged step next
  visited _ _ next := descending.visited_step step next
  executing _ _ _ _ below := descending.executing_step step below

theorem Descending.pause (pause : SoundPause ρ m m') : m'.Descending ρ := by
  refine ⟨fun _ _ hc => ?_, fun _ _ hc => ?_, fun _ _ _ _ below => ?_⟩
  · rcases pause.control with ⟨_, h⟩ | ⟨_, h⟩ <;> exact nomatch h.symm.trans hc
  · rcases pause.control with ⟨_, h⟩ | ⟨_, h⟩ <;> exact nomatch h.symm.trans hc
  · rw [pause.stack] at below
    exact nomatch List.suffix_nil.mp below

/-- In every run, walks that execute graphs come down along dependencies. -/
theorem Traced.descending (h : Traced host ρ (m :: trace)) : m.Descending ρ := by
  refine h.invariant (P := fun ρ m => m.Descending ρ) (fun _ _ _ => ?_)
    (fun traced step descending => descending.step traced.staged step)
    fun _ pause _ => Descending.pause pause
  refine ⟨nofun, fun _ _ hc => ?_, fun _ _ _ _ below => ?_⟩
  · exact nomatch hc
  · exact nomatch List.suffix_nil.mp below

end Descends

end Machine

end ModuleSystem.Loader
