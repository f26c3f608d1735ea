import ModuleSystem.Proofs.Loader.Collecting
import ModuleSystem.Proofs.Loader.Living

/-!
# Turns

The turn of a module to be executed comes when a walk has been at all its dependencies and no job has
to end before, or when all such jobs have ended well. As long as no import is within another activity,
a walk is on its own from its beginning to its end: meanwhile nothing happens to the modules that it
is at (`Machine.Inert`). So each dependency that it has left behind is done, or is executed by a job
that the module waits for, or is one that the walk is still at, which reaches the module
(`Machine.Cleared`).

All of this is put together in `Machine.Turns`, which holds in every run in which host code neither
polls imports nor gives up within one.

## Main definitions

* `Machine.Done`, `Machine.Passed`, `Machine.Cleared` : what has become of a dependency.
* `Machine.Stands`, `Machine.Standing`, `Machine.Turning` : where a walk is.
* `Machine.Turns` : the turns of modules come in order.
-/

namespace ModuleSystem.Loader

variable {C M : Type}

namespace Machine

open Store

/-! ### Dependencies -/

/-- The body of a module has ended well, or the module has been executed without one. -/
def Done (m : Machine C M) (r : RecordId) : Prop :=
  .bodyEnded r true ∈ m.store.milestones ∨
    (m.store.record r).state = .executed ∧ .bodyStarted r ∉ m.store.milestones

/-- A module is done, or a job is left that has to end first. -/
def Passed (m : Machine C M) (r : RecordId) : Prop :=
  m.Done r ∨ (m.store.record r).evaluation ≠ none

/-- Nothing of a dependency is left that a module would have to wait for, but for some jobs. -/
def Cleared (ρ : Roles) (m : Machine C M) (r : RecordId) (jobs : List JobId) (d : RecordId) : Prop :=
  m.Done d ∨ (∃ i ∈ jobs, ρ.Is i (.execute d)) ∨ m.Reaches d r

/-- A module is linked, and nothing has been done to execute it. -/
def Inert (m : Machine C M) (r : RecordId) : Prop :=
  (m.store.record r).state = .linked ∧ (m.store.record r).evaluation = none

/-! ### Walks that execute a graph -/

/-- A walk that executes a graph is at a module, or at one that it reaches from there. -/
def On : List (Frame C) → RecordId → Prop
  | .visiting r _ _ :: st, y => y = r ∨ On st y
  | _, _ => False

/-- A walk that executes a graph has come to a module, and has cleared all that it has left behind on
the way. -/
inductive Stands (ρ : Roles) (m : Machine C M) : RecordId → List (Frame C) → Prop
  | root {x st} : Stands ρ m x (.executingGraph :: st)
  | dependency {x r rest jobs before st}
      (dependencies : (m.store.record r).dependencies = before ++ x :: rest)
      (cleared : ∀ d ∈ before, m.Cleared ρ r jobs d) (inert : m.Inert r)
      (alive : m.store.isAlive r = true) (fresh : ¬ On st r) (below : Stands ρ m r st) :
      Stands ρ m x (.visiting r rest jobs :: st)

/-- A walk that executes a graph comes to a module, or leaves it behind. -/
structure Standing (ρ : Roles) (m : Machine C M) (x : RecordId) (st : List (Frame C))
    (seen : List RecordId) : Prop where
  place : Stands ρ m x st
  alive : m.store.isAlive x = true
  within : ∀ y, On st y → y ∈ seen
  looked : ∀ y ∈ seen, On st y ∨ m.Passed y

/-- A walk that executes a graph is about a module that no job is there for yet, but maybe one that
is being advanced for the first time. -/
structure Turning (ρ : Roles) (m : Machine C M) (r : RecordId) (st : List (Frame C))
    (seen : List RecordId) : Prop where
  place : Stands ρ m r st
  alive : m.store.isAlive r = true
  idle : (m.store.record r).evaluation = none
  fresh : ¬ On st r
  mem : r ∈ seen
  within : ∀ y, On st y → y ∈ seen
  looked : ∀ y ∈ seen, y = r ∨ On st y ∨ m.Passed y

/-- A walk that executes a graph leaves a module behind, but for a job that has to end. -/
structure Leaving (ρ : Roles) (m : Machine C M) (x : RecordId) (job : Option JobId)
    (st : List (Frame C)) (seen : List RecordId) : Prop where
  standing : Standing ρ m x st seen
  waits : ∀ i, job = some i → ρ.Is i (.execute x)
  done : job = none → m.Done x ∨ On st x

section Walk

variable {ρ ρ' : Roles} {m m' : Machine C M} {r x y d : RecordId} {st : List (Frame C)}
  {seen : List RecordId} {jobs : List JobId}

/-- The modules that a walk is at reach the one that it has come to. -/
theorem Stands.reaches (h : Stands ρ m x st) (on : On st y) : m.Reaches y x := by
  induction h with
  | root => exact on.elim
  | @dependency x r rest jobs before st dependencies _ _ _ _ _ ih =>
    have edge : x ∈ (m.store.record r).dependencies := by
      rw [dependencies]
      exact List.mem_append_right _ List.mem_cons_self
    rcases on with rfl | on
    · exact .single edge
    · exact (ih on).tail edge

theorem Stands.inert_of_on (h : Stands ρ m x st) (on : On st y) : m.Inert y := by
  induction h with
  | root => exact on.elim
  | dependency _ _ inert _ _ _ ih =>
    rcases on with rfl | on
    · exact inert
    · exact ih on

/-- A walk goes on to be where it is as long as nothing happens to the modules there. -/
theorem Stands.congr (h : Stands ρ m x st) (inert : ∀ y, On st y → m'.Inert y)
    (dependencies : ∀ y, On st y →
      (m'.store.record y).dependencies = (m.store.record y).dependencies)
    (alive : m'.store.isAlive = m.store.isAlive)
    (cleared : ∀ r jobs d, m.Cleared ρ r jobs d → m'.Cleared ρ' r jobs d) : Stands ρ' m' x st := by
  induction h with
  | root => exact .root
  | dependency split before _ living fresh _ ih =>
    refine .dependency ?_ (fun d hd => cleared _ _ d (before d hd)) (inert _ (.inl rfl))
      (by rw [alive, living]) fresh (ih (fun y on => inert y (.inr on)) fun y on =>
        dependencies y (.inr on))
    rw [dependencies _ (.inl rfl), split]

end Walk

/-! ### The order of turns -/

/-- The turns of modules to be executed come in order. -/
structure Turns (ρ : Roles) (m : Machine C M) : Prop where
  single : ∀ i j r, ρ.Is i (.execute r) → ρ.Is j (.execute r) → i = j
  engaged : ∀ j r, ρ.Is j (.execute r) → ¬ m.Inert r
  collects : ∀ j r jobs g, m.Collecting j r jobs g → (m.store.record r).evaluation = some j ∧
    (m.store.record r).state ≠ .executing ∧ (m.store.record r).state ≠ .executed ∧
    ∀ d ∈ (m.store.record r).dependencies, m.Cleared ρ r jobs d
  visit : ∀ x seen, m.control = .visit x seen → Standing ρ m x m.stack seen
  visited : ∀ job seen, m.control = .visited (.ok job) seen → ∃ x, Leaving ρ m x job m.stack seen
  executing : ∀ r i seen st, .executing r i seen :: st <:+ m.stack → Turning ρ m r st seen
  starts : ∀ j r body, m.Has j (.runBody r body) → (m.store.record r).state = .executing ∧
    .bodyStarted r ∉ m.store.milestones ∧
    ∀ d ∈ (m.store.record r).dependencies, m.Done d ∨ m.Reaches d r
  ended : ∀ j r, ρ.Is j (.execute r) → m.Ends j (.ok ()) → m.Done r
  settled : ∀ j r outcome, ρ.Is j (.execute r) → m.Ends j outcome → m.store.isAlive r = true →
    (m.store.record r).state ≠ .executing
  executed : ∀ r, (m.store.record r).state = .executed → m.Done r
  waits : ∀ r, (m.store.record r).state = .executing → (m.store.record r).evaluation ≠ none ∨
    ∃ i seen, .executing r i seen ∈ m.stack
  unwinds : m.control = .unwind → ∀ r i seen st, m.stack ≠ .executing r i seen :: st

/-- Whether a walk goes on next. -/
def IsWalking : Control C → Prop
  | .link _ _ | .linked _ _ | .visit _ _ | .visited _ _ => True
  | _ => False

section Static

variable {ρ : Roles} {m : Machine C M} {r y i : RecordId} {j : JobId} {st : List (Frame C)}
  {seen : List RecordId} {jobs : List JobId} {slot : Slot} {s : Store C} {g : GroupId}

theorem Turn.isWalking {c : Control C} {rest : List RecordId} {st st' : List (Frame C)}
    (way : Turn s st c r rest jobs seen st') : IsWalking c := by
  cases way <;> trivial

theorem Gathers.isWalking {c : Control C} {children : List LinkNode} {st st' : List (Frame C)}
    {s' : Store C} (way : Gathers s st c r children g seen s' st') : IsWalking c := by
  cases way <;> trivial

/-- A walk that turns to a module has cleared the dependencies that it has left behind. -/
theorem Turns.of_turn {rest : List RecordId} (turns : m.Turns ρ)
    (way : Turn m.store m.stack m.control r rest jobs seen st) :
    Turning ρ m r st seen ∧ m.Inert r ∧ ∃ before,
      (m.store.record r).dependencies = before ++ rest ∧ ∀ d ∈ before, m.Cleared ρ r jobs d := by
  generalize hst : m.stack = stack at way
  generalize hc : m.control = c at way
  cases way with
  | @first _ _ seen new linked idle =>
    have standing := turns.visit r seen hc
    rw [hst] at standing
    refine ⟨⟨standing.place, standing.alive, idle, fun on => new (standing.within r on),
      List.mem_cons_self, fun y on => List.mem_cons_of_mem _ (standing.within y on),
      fun y hy => ?_⟩, ⟨linked, idle⟩, [], rfl, nofun⟩
    exact (List.mem_cons.mp hy).imp_right (standing.looked y)
  | @next _ _ _ old job _ =>
    obtain ⟨x, ⟨place, _, within, looked⟩, waits, done⟩ := turns.visited job seen hc
    rw [hst] at place within looked done
    cases id place with
    | @dependency _ _ _ _ before _ split cleared inert alive fresh below =>
      refine ⟨⟨below, alive, inert.2, fresh, within r (.inl rfl), fun y on => within y (.inr on),
        fun y hy => ?_⟩, inert, before ++ [x], by simp [split], fun d hd => ?_⟩
      · rcases looked y hy with (rfl | on) | passed
        · exact .inl rfl
        · exact .inr (.inl on)
        · exact .inr (.inr passed)
      · rcases List.mem_append.mp hd with hd | hd
        · rcases cleared d hd with done | ⟨i, hi, is⟩ | reaches
          · exact .inl done
          · exact .inr (.inl ⟨i, List.mem_append_left _ hi, is⟩)
          · exact .inr (.inr reaches)
        · obtain rfl := List.mem_singleton.mp hd
          cases job with
          | some i => exact .inr (.inl ⟨i, by simp, waits i rfl⟩)
          | none =>
            rcases done rfl with done | rfl | on
            · exact .inl done
            · exact .inr (.inr .refl)
            · exact .inr (.inr (below.reaches on))

/-- Above the first attempt at a module there is nothing but its job and its body, with host code. -/
theorem Turns.above (turns : m.Turns ρ) (flat : IsFlat m.stack) (h : Awaits ρ slot m.stack)
    (below : .executing r j seen :: st <:+ m.stack) :
    slot = .polled j ∧ m.stack = .executing r j seen :: st ∨
      slot = .work j ∧ m.stack = .advancing j :: .executing r j seen :: st ∨
      slot.IsHost ∧ ∃ above, advanced above = [] ∧
        m.stack = above ++ .body r :: .advancing j :: .executing r j seen :: st := by
  obtain ⟨_, attempt, place⟩ := h.next_above below
  rcases attempt with _ | ⟨fits, _⟩
  cases fits
  rename ρ.Is j (.execute r) => is
  rcases place with ⟨stack, rfl⟩ | ⟨frame, _, first, below₁⟩
  · exact .inl ⟨rfl, stack⟩
  cases first
  obtain ⟨_, job, place⟩ := h.next_above below₁
  rcases job with _ | ⟨⟨⟩, _⟩
  rcases place with ⟨stack, rfl⟩ | ⟨frame, _, second, below₂⟩
  · exact .inr (.inl ⟨rfl, stack⟩)
  cases second with
  | body is' =>
    obtain rfl := JobKind.execute.inj (is.eq is')
    obtain ⟨above, stack⟩ := below₂
    rw [← stack] at h flat
    obtain ⟨isHost, none⟩ := h.above_body flat
    exact .inr (.inr ⟨isHost, above, none, stack.symm⟩)
  | executingAfter is' _ _ _ =>
    obtain rfl := JobKind.execute.inj (is.eq is')
    have idle := (turns.executing r j seen st below).idle
    exact nomatch idle.symm.trans (turns.collects j r _ _ (.about below₂)).1
  | hook is' | linking is' _ | joining is' _ _ _ _ | handingOver is' _ | linkingGraph is'
      | executingGraph is' | evaluating is' _ => exact nomatch is.eq is'

end Static

/-! ### What a step leaves -/

section Steps

variable {host : Host C M} {ρ ρ' : Roles} {m m' : Machine C M} {trace : List (Machine C M)}
  {r y d : RecordId} {i j : JobId} {st : List (Frame C)} {seen : List RecordId} {jobs : List JobId}
  {slot : Slot} {s : Store C} {g : GroupId}

/-- No first attempt is made while a walk goes on. -/
theorem Turns.not_executing_of_walking (turns : m.Turns ρ) (sound : m.Sound ρ)
    (flat : IsFlat m.stack) (walking : IsWalking m.control) :
    ¬ .executing r i seen :: st <:+ m.stack := by
  intro below
  have control := sound.control
  have walks : ∃ slot, Awaits ρ slot m.stack ∧ (∀ j, slot ≠ .polled j) ∧ (∀ j, slot ≠ .work j) ∧
      ¬ slot.IsHost := by
    generalize m.control = c at walking control
    cases c with
    | link _ _ | visited _ _ =>
      obtain ⟨_, _, awaits, _⟩ := control
      exact ⟨_, awaits, nofun, nofun, id⟩
    | linked _ _ =>
      obtain ⟨_, _, _, awaits, _⟩ := control
      exact ⟨_, awaits, nofun, nofun, id⟩
    | visit _ _ =>
      obtain ⟨_, awaits, _⟩ := control
      exact ⟨_, awaits, nofun, nofun, id⟩
    | _ => exact walking.elim
  obtain ⟨slot, awaits, polled, work, host⟩ := walks
  rcases turns.above flat awaits below with ⟨h, _⟩ | ⟨h, _⟩ | ⟨h, _⟩
  · exact polled _ h
  · exact work _ h
  · exact host h

/-- A job that is about to take up a body executes its module. -/
theorem Sound.executes_of_runBody (sound : m.Sound ρ) {body : Option C}
    (hc : m.control = .work (.runBody r body)) : ∃ j, ρ.Is j (.execute r) := by
  obtain ⟨j, _, _, has⟩ := sound.has_of_work hc
  cases sound.fits_of_has has with
  | runBody is => exact ⟨j, is⟩

/-- A body is advanced by a job that executes its module. -/
theorem Sound.executes_of_body (sound : m.Sound ρ) (below : .body r :: st <:+ m.stack) :
    ∃ j st', st = .advancing j :: st' ∧ ρ.Is j (.execute r) := by
  obtain ⟨slot, awaits⟩ := sound.control.awaits
  obtain ⟨_, _, fits, awaits⟩ := awaits.of_suffix below
  cases fits with
  | body is =>
    obtain ⟨st', rfl, _⟩ := awaits.of_work
    exact ⟨_, st', rfl, is⟩

/-- A module that is executed without a body is done. -/
private theorem Turns.done_of_bodyless (turns : m.Turns ρ) (step : SoundStep host ρ ρ' m m')
    (hc : m.control = .work (.runBody r none)) (state : (m'.store.record r).state = .executed) :
    m'.Done r := by
  obtain ⟨j, _, _, has⟩ := step.sound.has_of_work hc
  refine .inr ⟨state, fun started => ?_⟩
  rcases step.rule.happens_of_mem started trivial with started | happens
  · exact (turns.starts j r none has).2.1 started
  · cases happens with
    | bodyStarted hc' _ _ => exact nomatch hc.symm.trans hc'

/-- What is done stays done. -/
theorem Turns.done_step (turns : m.Turns ρ) (staged : m.Staged ρ) (step : SoundStep host ρ ρ' m m')
    (h : m.Done r) : m'.Done r := by
  rcases h with ended | ⟨executed, fresh⟩
  · exact .inl (step.rule.mem_milestones ended)
  have linked : m.Linked r := staged.linked r (by rw [executed]; trivial)
  have fresh' : .bodyStarted r ∉ m'.store.milestones := by
    intro started
    rcases step.rule.happens_of_mem started trivial with started | happens
    · exact fresh started
    · cases happens with
      | bodyStarted hc _ _ =>
        obtain ⟨j, _, _, has⟩ := step.sound.has_of_work hc
        exact nomatch executed.symm.trans (turns.starts j r _ has).1
  cases (step.rule.recordChange linked.1).transition with
  | stays state => exact .inr ⟨state.trans executed, fresh'⟩
  | fails unexecuted _ _ => exact absurd executed unexecuted
  | hooked hc _ _ _ => exact absurd (staged.instantiated r linked) (step.sound.not_instantiated hc)
  | attached way _ _ _ => exact absurd linked (step.sound.not_linked way)
  | comes way _ _ _ _ _ => exact nomatch executed.symm.trans (turns.of_turn way).2.1.1
  | collected way _ _ _ _ =>
    obtain ⟨j, _, _, collecting⟩ := step.sound.collecting way
    exact absurd executed (turns.collects j r _ _ collecting).2.2.1
  | ended _ _ _ milestones _ _ => exact .inl (by rw [milestones]; exact List.mem_cons_self)
  | bodyless _ _ _ _ state => exact .inr ⟨state, fresh'⟩

theorem Turns.cleared_step (turns : m.Turns ρ) (staged : m.Staged ρ)
    (step : SoundStep host ρ ρ' m m') (h : m.Cleared ρ r jobs d) : m'.Cleared ρ' r jobs d := by
  rcases h with done | ⟨i, hi, is⟩ | reaches
  · exact .inl (turns.done_step staged step done)
  · exact .inr (.inl ⟨i, hi, is.mono step.follow.le⟩)
  · exact .inr (.inr (step.onward.reaches_mono staged reaches))

/-- A module without a job gets one when a walk has cleared its dependencies, or when the first
attempt at it has to wait. -/
theorem RecordChange.idle_cases (h : RecordChange m m' r)
    (idle : (m.store.record r).evaluation = none) :
    (m'.store.record r).evaluation = none ∨ IsWalking m.control ∨
      ∃ i seen, m.stack = .executing r i seen :: m'.stack := by
  cases h with
  | same record => exact .inl (record.evaluation.trans idle)
  | failed _ same record => exact .inl (by simp [record, same.evaluation, idle])
  | attached _ _ listened record => exact .inl (by simp [record, listened.evaluation, idle])
  | deferred way _ _ _ => exact .inr (.inl way.isWalking)
  | suspended stack _ _ _ => exact .inr (.inr ⟨_, _, stack⟩)
  | imported _ _ _ _ _ record | hooked _ _ _ _ record | adopted _ _ _ _ _ record
      | comes _ _ _ _ record | collected _ _ _ _ _ _ record | ended _ _ _ _ _ record
      | bodyless _ _ _ _ record | bodyFailed _ _ _ record => exact .inl (by simp [record, idle])

/-- Nothing happens to a linked module that no job executes, but by a walk. -/
theorem Turns.inert_step (turns : m.Turns ρ) (staged : m.Staged ρ)
    (step : SoundStep host ρ ρ' m m') (h : m.Inert r) :
    m'.Inert r ∨ IsWalking m.control ∨ ∃ i seen, m.stack = .executing r i seen :: m'.stack := by
  have linked : m.Linked r := staged.linked r (by rw [h.1]; trivial)
  have change := step.rule.recordChange linked.1
  rcases change.idle_cases h.2 with idle | other
  swap
  · exact .inr other
  have control := step.sound.control
  have busy : ∀ {j}, ρ.Is j (.execute r) → False := fun is => turns.engaged _ r is h
  have stays : (m'.store.record r).state = (m.store.record r).state → m'.Inert r := fun state =>
    ⟨state.trans h.1, idle⟩
  cases change with
  | same record => exact .inl (stays record.state)
  | imported _ _ _ _ _ record | suspended _ _ _ record => exact .inl (stays (by rw [record]))
  | hooked hc _ _ _ _ => exact absurd (staged.instantiated r linked) (step.sound.not_instantiated hc)
  | adopted stack hc _ _ _ _ =>
    exact absurd (staged.instantiated r linked) (step.sound.not_instantiated_of_hook stack hc)
  | attached way _ _ _ => exact absurd linked (step.sound.not_linked way)
  | deferred way _ _ _ | comes way _ _ _ _ => exact .inr (.inl way.isWalking)
  | collected way _ _ _ _ _ _ =>
    obtain ⟨_, _, is, _⟩ := way.awaits control
    exact (busy is).elim
  | ended stack _ _ _ _ _ | bodyFailed stack _ _ _ =>
    obtain ⟨_, _, _, is⟩ := step.sound.executes_of_body ⟨[], stack.symm⟩
    exact (busy is).elim
  | bodyless hc _ _ _ _ =>
    obtain ⟨_, is⟩ := step.sound.executes_of_runBody hc
    exact (busy is).elim
  | failed cause _ _ =>
    cases cause with
    | hook stack hc _ =>
      exact absurd (staged.instantiated r linked) (step.sound.not_instantiated_of_hook stack hc)
    | unresolved stack hc _ =>
      rw [hc, stack] at control
      obtain ⟨_, _ | ⟨fits, below⟩, _⟩ := control
      cases fits with
      | linking is _ =>
        refine absurd linked (step.sound.not_linked_of_work below ?_ is (by simp [hc]))
        rw [stack]
        exact List.suffix_cons _ _
    | joined way _ _ =>
      obtain ⟨_, awaits, is, _⟩ := way.awaits control
      exact absurd linked (step.sound.not_linked_of_work awaits way.suffix is fun _ => way.not_ended)
    | gathered way _ => exact .inr (.inl way.isWalking)
    | visited _ hc => exact .inr (.inl (by rw [hc]; trivial))
    | collected way _ _ =>
      obtain ⟨_, _, is, _⟩ := way.awaits control
      exact (busy is).elim

/-- What a walk has left behind stays so, unless its body fails. -/
theorem Turns.passed_step (turns : m.Turns ρ) (staged : m.Staged ρ)
    (step : SoundStep host ρ ρ' m m') (h : m.Passed r) :
    m'.Passed r ∨ m.stack = .body r :: m'.stack ∧ ∃ code, m.control = .host code := by
  rcases h with done | waits
  · exact .inl (.inl (turns.done_step staged step done))
  have hr : r < m.store.records.size := Nat.lt_of_not_le fun hle =>
    waits (by rw [record_of_size_le hle]; rfl)
  cases step.rule.recordChange hr with
  | same record => exact .inl (.inr (by rwa [record.evaluation]))
  | failed _ same record => exact .inl (.inr (by simpa [record, same.evaluation] using waits))
  | attached _ _ listened record =>
    exact .inl (.inr (by simpa [record, listened.evaluation] using waits))
  | deferred _ _ _ record | suspended _ _ _ record => exact .inl (.inr (by simp [record]))
  | ended _ _ _ _ milestones _ =>
    exact .inl (.inl (.inl (by rw [milestones]; exact List.mem_cons_self)))
  | bodyFailed stack hc _ _ => exact .inr ⟨stack, _, hc⟩
  | bodyless hc _ _ _ record =>
    obtain ⟨j, _, _, has⟩ := step.sound.has_of_work hc
    refine .inl (.inl (turns.done_of_bodyless step hc ?_))
    simp [record, Record.state_enter, (turns.starts j r none has).1, ModuleState.error?]
  | imported _ _ _ _ _ record | hooked _ _ _ _ record | adopted _ _ _ _ _ record
      | comes _ _ _ _ record | collected _ _ _ _ _ _ record =>
    exact .inl (.inr (by simpa [record] using waits))

end Steps

/-! ### Steps of a walk -/

section Walking

variable {host : Host C M} {ρ ρ' : Roles} {m m' : Machine C M} {trace : List (Machine C M)}
  {r x y d : RecordId} {i j : JobId} {st : List (Frame C)} {seen : List RecordId}
  {jobs : List JobId} {slot : Slot} {s : Store C} {g : GroupId} {job : Option JobId}

/-- A walk is where it was before a step in which nothing happens to the modules there. -/
private theorem Turns.stands_step (turns : m.Turns ρ) (staged : m.Staged ρ)
    (step : SoundStep host ρ ρ' m m') (h : Stands ρ m x st)
    (inert : ∀ y, On st y → m.Inert y → m'.Inert y) : Stands ρ' m' x st := by
  refine h.congr (fun y on => inert y on (h.inert_of_on on)) (fun y on => ?_)
    (funext step.rule.isAlive) fun _ _ _ => turns.cleared_step staged step
  exact step.onward.dependencies y (staged.linked y (by rw [(h.inert_of_on on).1]; trivial))

private theorem Turns.standing_step (turns : m.Turns ρ) (staged : m.Staged ρ)
    (step : SoundStep host ρ ρ' m m') (h : Standing ρ m x st seen)
    (inert : ∀ y, On st y → m.Inert y → m'.Inert y) (passed : ∀ y, m.Passed y → m'.Passed y) :
    Standing ρ' m' x st seen where
  place := turns.stands_step staged step h.place inert
  alive := by rw [step.rule.isAlive, h.alive]
  within := h.within
  looked y hy := (h.looked y hy).imp_right (passed y)

private theorem Turns.turning_step (turns : m.Turns ρ) (staged : m.Staged ρ)
    (step : SoundStep host ρ ρ' m m') (h : Turning ρ m r st seen)
    (inert : ∀ y, On st y → m.Inert y → m'.Inert y) (idle : (m'.store.record r).evaluation = none)
    (passed : ∀ y, m.Passed y → y = r ∨ m'.Passed y) : Turning ρ' m' r st seen where
  place := turns.stands_step staged step h.place inert
  alive := by rw [step.rule.isAlive, h.alive]
  idle := idle
  fresh := h.fresh
  mem := h.mem
  within := h.within
  looked y hy := by
    rcases h.looked y hy with eq | on | ok
    · exact .inl eq
    · exact .inr (.inl on)
    · exact (passed y ok).imp_right .inr

/-- A walk leaves a module behind that is done, or has got a job, in a step. -/
private theorem Turns.leaving_step (turns : m.Turns ρ) (staged : m.Staged ρ)
    (step : SoundStep host ρ ρ' m m') (h : Turning ρ m r st seen)
    (inert : ∀ y, On st y → m.Inert y → m'.Inert y) (others : ∀ y, m.Passed y → m'.Passed y)
    (waits : ∀ i, job = some i → (m'.store.record r).evaluation = some i)
    (done : job = none → m'.Done r) : Leaving ρ' m' r job st seen where
  standing :=
    { place := turns.stands_step staged step h.place inert
      alive := by rw [step.rule.isAlive, h.alive]
      within := h.within
      looked := fun y hy => by
        rcases h.looked y hy with rfl | on | ok
        · cases job with
          | none => exact .inr (.inl (done rfl))
          | some i => exact .inr (.inr (by simp [waits i rfl]))
        · exact .inl on
        · exact .inr (others y ok) }
  waits i hi := step.sound'.store.evaluation r i (waits i hi)
  done h := .inl (done h)

/-- A walk that turns to a dependency of a module comes to it. -/
private theorem Turns.standing_of_turn {rest : List RecordId} (turns : m.Turns ρ)
    (living : m.Living) (way : Turn m.store m.stack m.control r (d :: rest) jobs seen st) :
    Standing ρ m d (.visiting r rest jobs :: st) seen := by
  obtain ⟨turning, inert, before, dependencies, cleared⟩ := turns.of_turn way
  refine ⟨.dependency dependencies cleared inert turning.alive turning.fresh turning.place,
    living.dependencies r turning.alive d ?_, ?_, fun y hy => ?_⟩
  · rw [dependencies]
    exact List.mem_append_right _ List.mem_cons_self
  · rintro y (rfl | on)
    · exact turning.mem
    · exact turning.within y on
  · rcases turning.looked y hy with rfl | on | ok
    · exact .inl (.inl rfl)
    · exact .inl (.inr on)
    · exact .inr ok

private theorem Turns.visit_step (turns : m.Turns ρ) (staged : m.Staged ρ) (living : m.Living)
    (step : SoundStep host ρ ρ' m m') (next : m'.control = .visit x seen) :
    Standing ρ' m' x m'.stack seen := by
  have rule := step.rule
  cases rule
  case move move =>
    cases move
    case graphLinked alive =>
      cases next
      exact ⟨.root, alive, fun y on => on.elim, nofun⟩
    case turnVisits way =>
      cases next
      exact turns.standing_step staged step (turns.standing_of_turn living way)
        (fun _ _ h => h) fun _ h => h
    all_goals exact nomatch next
  case publishes way => rcases way.control with h | h <;> exact nomatch h.symm.trans next
  case handsOver after => rcases after.control with h | h <;> exact nomatch h.symm.trans next
  all_goals exact nomatch next

theorem Standing.look (h : Standing ρ m x st seen) (passed : m.Passed x) :
    Standing ρ m x st (x :: seen) where
  place := h.place
  alive := h.alive
  within y on := List.mem_cons_of_mem _ (h.within y on)
  looked y hy := by
    rcases List.mem_cons.mp hy with rfl | hy
    · exact .inr passed
    · exact h.looked y hy

/-- A walk that comes to an executing module finds a job that it has to wait for. -/
theorem Turns.busy_of_visit (turns : m.Turns ρ) (sound : m.Sound ρ) (flat : IsFlat m.stack)
    (hc : m.control = .visit x seen) (state : (m.store.record x).state = .executing) :
    (m.store.record x).evaluation ≠ none := by
  rcases turns.waits x state with busy | ⟨i, seen, mem⟩
  · exact busy
  · obtain ⟨above, st, stack⟩ := List.append_of_mem mem
    refine absurd ⟨above, stack.symm⟩ (turns.not_executing_of_walking sound flat ?_)
    rw [hc]
    trivial

/-- A walk that comes to a module with which it has nothing to do leaves it behind. -/
private theorem Turns.leaving_of_visit (turns : m.Turns ρ) (sound : m.Sound ρ)
    (staged : m.Staged ρ) (barred : m.Barred ρ) (flat : IsFlat m.stack) {st' : List (Frame C)}
    {seen' : List RecordId} (hc : m.control = .visit x seen)
    (move : Move m.store m.stack (.visit x seen) st' (.visited (.ok job) seen')) :
    Leaving ρ m x job st' seen' := by
  have standing := turns.visit x seen hc
  have waits : ∀ i, (m.store.record x).evaluation = some i → ρ.Is i (.execute x) :=
    fun i hi => sound.store.evaluation x i hi
  generalize hst : m.stack = stack at move
  rw [hst] at standing
  cases move with
  | visitSeen mem =>
    refine ⟨standing, waits, fun idle => ?_⟩
    rcases standing.looked x mem with on | done | waits
    · exact .inr on
    · exact .inl done
    · exact absurd idle waits
  | visitExecuted _ state =>
    have done := turns.executed x state
    exact ⟨standing.look (.inl done), nofun, fun _ => .inl done⟩
  | visitExecuting _ state =>
    have busy := turns.busy_of_visit sound flat hc state
    exact ⟨standing.look (.inr busy), waits, fun idle => absurd idle busy⟩
  | visitUnlinked _ state =>
    exfalso
    rcases staged.entered x (barred.visit x seen hc).linked with linked | ⟨_, failed⟩
    · rcases state with state | state <;> rw [state] at linked <;> exact linked
    · rcases state with state | state <;> exact nomatch failed.symm.trans state
  | visitWaiting _ _ busy =>
    refine ⟨standing.look (.inr (by simp [busy])), ?_, nofun⟩
    rintro _ ⟨⟩
    exact waits _ busy

/-- The job of a module whose first attempt has ended has ended. -/
private theorem Sound.finished_of_attempt (sound : m.Sound ρ) {outcome : Outcome}
    (stack : m.stack = .executing r i seen :: st) (hc : m.control = .polled (some outcome)) :
    ρ.Is i (.execute r) ∧ m.Ends i outcome := by
  have control := sound.control
  rw [hc, stack] at control
  obtain ⟨_, _ | ⟨fits, _⟩, finished⟩ := control
  cases fits with
  | executing is => exact ⟨is, .inl (finished _ rfl)⟩

private theorem Turns.visited_step (turns : m.Turns ρ) (staged : m.Staged ρ) (barred : m.Barred ρ)
    (flat : IsFlat m.stack) (step : SoundStep host ρ ρ' m m')
    (next : m'.control = .visited (.ok job) seen) : ∃ x, Leaving ρ' m' x job m'.stack seen := by
  have rule := step.rule
  have same : ∀ {x}, m'.store = m.store → Leaving ρ m x job m'.stack seen →
      Leaving ρ' m' x job m'.stack seen := by
    intro x store leaving
    refine ⟨turns.standing_step staged step leaving.standing (fun y _ h => ?_) fun y h => ?_,
      fun i hi => (leaving.waits i hi).mono step.follow.le, fun h => ?_⟩
    · rwa [Inert, store]
    · rwa [Passed, Done, store]
    · exact (leaving.done h).imp_left (turns.done_step staged step)
  have passed : IsWalking m.control ∨ (∃ o, m.control = .polled o) → ∀ y, m.Passed y →
      m'.Passed y := by
    intro hc y h
    rcases turns.passed_step staged step h with ok | ⟨_, code, hc'⟩
    · exact ok
    · rw [hc'] at hc
      rcases hc with hc | ⟨_, hc⟩
      · exact hc.elim
      · exact nomatch hc
  cases rule
  case move move =>
    have move' := move
    cases move
    case visitSeen | visitExecuted | visitExecuting | visitUnlinked | visitWaiting =>
      cases next
      exact ⟨_, same rfl (turns.leaving_of_visit step.sound staged barred flat rfl move')⟩
    case attempted r i seen =>
      cases next
      have turning := turns.executing r i seen _ (List.suffix_refl _)
      obtain ⟨is, ends⟩ := step.sound.finished_of_attempt rfl rfl
      exact ⟨r, turns.leaving_step staged step turning (fun _ _ h => h) (fun _ h => h) nofun
        fun _ => turns.done_step staged step (turns.ended i r is ends)⟩
    all_goals exact nomatch next
  case publishes way => rcases way.control with h | h <;> exact nomatch h.symm.trans next
  case handsOver after => rcases after.control with h | h <;> exact nomatch h.symm.trans next
  case attemptWaits s memory st r i seen =>
    cases next
    have turning := turns.executing r i seen _ (List.suffix_refl _)
    have hr : r < s.records.size := by
      obtain ⟨_, _ | ⟨fits, _⟩, _⟩ := step.sound.control
      cases fits with
      | executing is => exact (staged.executes i r is).1
    refine ⟨r, turns.leaving_step staged step turning (fun y on inert => ?_)
      (passed (.inr ⟨_, rfl⟩)) ?_ nofun⟩
    · have ne : y ≠ r := fun eq => turning.fresh (eq ▸ on)
      rwa [Inert, record_setEvaluation_of_ne ne]
    · rintro _ ⟨⟩
      rw [record_setEvaluation_self hr]
  case turnDeferred s memory _ _ r jobs _ st' way _ =>
    cases next
    obtain ⟨turning, inert, _⟩ := turns.of_turn way
    have hr : r < s.records.size := (staged.linked r (by rw [inert.1]; trivial)).1
    refine ⟨r, turns.leaving_step staged step turning (fun y on inert => ?_)
      (passed (.inl way.isWalking)) ?_ nofun⟩
    · have ne : y ≠ r := fun eq => turning.fresh (eq ▸ on)
      rwa [Inert, record_setEvaluation_of_ne ne]
    · rintro _ ⟨⟩
      rw [record_setEvaluation_self (by simpa using hr)]
  all_goals exact nomatch next

/-- A first attempt that goes on stays where it is. -/
private theorem Turns.attempt_step (turns : m.Turns ρ) (staged : m.Staged ρ)
    (flat : IsFlat m.stack) (step : SoundStep host ρ ρ' m m')
    (below : .executing r i seen :: st <:+ m.stack)
    (below' : .executing r i seen :: st <:+ m'.stack) : Turning ρ' m' r st seen := by
  have turning := turns.executing r i seen st below
  obtain ⟨slot, awaits⟩ := step.sound.control.awaits
  have place := turns.above flat awaits below
  have still : ¬ IsWalking m.control := fun walking =>
    turns.not_executing_of_walking step.sound flat walking below
  have lone : ∀ {y i seen}, m.stack ≠ .executing y i seen :: m'.stack := by
    intro y i seen stack
    rcases place with ⟨_, stack'⟩ | ⟨_, stack'⟩ | ⟨isHost, _⟩
    · cases stack.symm.trans stack'
      exact absurd below'.length_le (by simp)
    · exact nomatch stack.symm.trans stack'
    · rw [stack] at awaits
      obtain _ | ⟨⟨_⟩, _⟩ := awaits
      exact isHost
  refine turns.turning_step staged step turning (fun y _ inert => ?_) ?_ fun y ok => ?_
  · rcases turns.inert_step staged step inert with inert | walking | ⟨_, _, stack⟩
    · exact inert
    · exact absurd walking still
    · exact absurd stack lone
  · have hr : r < m.store.records.size := by
      obtain ⟨_, _, fits, _⟩ := awaits.of_suffix below
      cases fits with
      | executing is => exact (staged.executes i r is).1
    rcases (step.rule.recordChange hr).idle_cases turning.idle with idle | walking | ⟨_, _, stack⟩
    · exact idle
    · exact absurd walking still
    · exact absurd stack lone
  · rcases turns.passed_step staged step ok with ok | ⟨stack, _⟩
    · exact .inr ok
    -- the body that fails is the one that is attempted
    · obtain ⟨_, st', stack', _⟩ := step.sound.executes_of_body ⟨[], stack.symm⟩
      rw [stack'] at stack
      rcases place with ⟨_, h⟩ | ⟨_, h⟩ | ⟨_, above, idle, h⟩
      · exact nomatch stack.symm.trans h
      · exact nomatch stack.symm.trans h
      · have job := congrArg advanced (stack.symm.trans h)
        simp only [advanced_append, idle, advanced, List.nil_append, List.cons.injEq] at job
        obtain ⟨rfl, _⟩ := job
        exact .inl (Frame.body.inj (step.sound.above_unique ⟨[], stack.symm⟩ ⟨above, h.symm⟩))

private theorem Turns.executing_step (turns : m.Turns ρ) (staged : m.Staged ρ)
    (flat : IsFlat m.stack) (step : SoundStep host ρ ρ' m m')
    (below' : .executing r i seen :: st <:+ m'.stack) : Turning ρ' m' r st seen := by
  rcases step.rule.started below' with below | ⟨pushed, stack | may⟩
  · exact turns.attempt_step staged flat step below below'
  · cases pushed with
    | plain h => exact h.elim
    | executing way stack' store =>
      cases stack.symm.trans stack'
      obtain ⟨turning, inert, _⟩ := turns.of_turn way
      have hr : r < m.store.records.size := (staged.linked r (by rw [inert.1]; trivial)).1
      refine turns.turning_step staged step turning (fun y on inert => ?_) ?_ fun y ok => ?_
      · have ne : y ≠ r := fun eq => turning.fresh (eq ▸ on)
        rwa [Inert, store, newJob_same.1, record_takeTurn_of_ne ne]
      · rw [store, newJob_same.1, record_takeTurn_self hr]
        simpa using turning.idle
      · rcases turns.passed_step staged step ok with ok | ⟨_, _, hc⟩
        · exact .inr ok
        · have walking := way.isWalking
          rw [hc] at walking
          exact walking.elim
  · exact may.elim

end Walking

/-! ### Steps of the jobs -/

section Jobs

variable {host : Host C M} {ρ ρ' : Roles} {m m' : Machine C M} {trace : List (Machine C M)}
  {r d : RecordId} {i j : JobId} {st : List (Frame C)} {seen : List RecordId} {jobs : List JobId}
  {s s₁ : Store C} {g : GroupId}

private theorem Turns.single_step (turns : m.Turns ρ) (step : SoundStep host ρ ρ' m m')
    (hi : ρ'.Is i (.execute r)) (hj : ρ'.Is j (.execute r)) : i = j := by
  have busy : ∀ {j jobs seen st}, ρ.Is j (.execute r) →
      ¬ Turn m.store m.stack m.control r [] jobs seen st := fun is way =>
    turns.engaged _ r is (turns.of_turn way).2.1
  rcases step.executes_cases hi with hi | ⟨rfl, _, _, _, way, _⟩ <;>
    rcases step.executes_cases hj with hj | ⟨rfl, _, _, _, way', _⟩
  · exact turns.single i j r hi hj
  · exact absurd way' (busy hi)
  · exact absurd way (busy hj)
  · rfl

private theorem Turns.engaged_step (turns : m.Turns ρ) (staged : m.Staged ρ)
    (step : SoundStep host ρ ρ' m m') (is' : ρ'.Is j (.execute r)) : ¬ m'.Inert r := by
  rintro ⟨linked', idle'⟩
  have entered : ∀ {x : Record C} {state : ModuleState}, (x.enter state).state = .linked →
      state = .linked := by
    intro x state h
    rcases Record.state_enter_cases with h' | ⟨_, _, h'⟩
    · exact h'.symm.trans h
    · exact nomatch h'.symm.trans h
  have failed : ∀ {x : Record C} {error : LoaderError}, (x.poison error).state ≠ .linked := by
    intro x error
    rcases Record.state_poison_cases with h | ⟨_, h⟩ <;> rw [h] <;> nofun
  rcases step.executes_cases is' with is | ⟨_, _, _, _, way, made⟩
  · have linked : m.Linked r := staged.executes j r is
    refine turns.engaged j r is ?_
    cases step.rule.recordChange linked.1 with
    | same record => exact ⟨record.state ▸ linked', record.evaluation ▸ idle'⟩
    | imported _ _ _ _ _ record | adopted _ _ _ _ _ record =>
      rw [record] at linked' idle'
      exact ⟨linked', idle'⟩
    | deferred _ _ _ record | suspended _ _ _ record => simp [record] at idle'
    | attached way _ _ _ => exact absurd linked (step.sound.not_linked way)
    | failed _ _ record | bodyFailed _ _ _ record =>
      rw [record] at linked'
      exact absurd linked' failed
    | hooked _ _ _ _ record | comes _ _ _ _ record | collected _ _ _ _ _ _ record
        | ended _ _ _ _ _ record | bodyless _ _ _ _ record =>
      rw [record] at linked'
      exact nomatch entered linked'
  · have hr : r < m.store.records.size :=
      (staged.linked r (by rw [(turns.of_turn way).2.1.1]; trivial)).1
    rcases made with taken | waits
    · rw [taken.record hr] at linked'
      exact nomatch entered linked'
    · exact nomatch idle'.symm.trans (waits hr)

private theorem Turns.collects_step (turns : m.Turns ρ) (staged : m.Staged ρ)
    (step : SoundStep host ρ ρ' m m') (h : m'.Collecting j r jobs g) :
    (m'.store.record r).evaluation = some j ∧ (m'.store.record r).state ≠ .executing ∧
      (m'.store.record r).state ≠ .executed ∧
      ∀ d ∈ (m'.store.record r).dependencies, m'.Cleared ρ' r jobs d := by
  rcases step.collecting_cases h with collecting | ⟨new, state⟩
  · obtain ⟨waits, unstarted, unexecuted, cleared⟩ := turns.collects j r jobs g collecting
    obtain ⟨is, _, _⟩ := step.sound.fits_of_collecting collecting
    have linked : m.Linked r := staged.executes j r is
    have own : ∀ {i}, ρ.Is i (.execute r) → i = j := fun is' => turns.single _ _ r is' is
    have turned : ∀ {rest jobs seen st}, ¬ Turn m.store m.stack m.control r rest jobs seen st :=
      fun way => nomatch waits.symm.trans (turns.of_turn way).2.1.2
    have idle : ∀ {i seen st}, m.stack ≠ .executing r i seen :: st := fun stack =>
      nomatch waits.symm.trans (turns.executing r _ _ _ ⟨[], stack.symm⟩).idle
    have bodyless : ∀ {body}, m.control ≠ .work (.runBody r body) := by
      intro body hc
      obtain ⟨i, _, _, has⟩ := step.sound.has_of_work hc
      cases step.sound.fits_of_has has with
      | runBody is' =>
        obtain rfl := own is'
        exact nomatch collecting.eq_of_has step.sound has
    have silent : ∀ {st}, m.stack ≠ .body r :: st := by
      intro st stack
      obtain ⟨i, st', rfl, is'⟩ := step.sound.executes_of_body ⟨[], stack.symm⟩
      obtain rfl := own is'
      obtain ⟨_, eq⟩ := collecting.eq_of_above step.sound ⟨[], stack.symm⟩
      exact nomatch eq
    have keeps : (m'.store.record r).evaluation = some j ∧
        (m'.store.record r).state ≠ .executing ∧ (m'.store.record r).state ≠ .executed := by
      cases step.rule.recordChange linked.1 with
      | same record => exact ⟨record.evaluation.trans waits, record.state ▸ unstarted,
          record.state ▸ unexecuted⟩
      | imported _ _ _ _ _ record | adopted _ _ _ _ _ record =>
        rw [record]
        exact ⟨waits, unstarted, unexecuted⟩
      | hooked hc _ _ _ _ =>
        exact absurd (staged.instantiated r linked) (step.sound.not_instantiated hc)
      | attached way _ _ _ => exact absurd linked (step.sound.not_linked way)
      | failed _ same record =>
        rw [record, Record.state_poison, Record.poison_same.2.2.2.2.1, same.state, same.evaluation]
        refine ⟨waits, ?_⟩
        split_ifs
        · exact ⟨unstarted, unexecuted⟩
        · exact ⟨nofun, nofun⟩
      | deferred way _ _ _ | comes way _ _ _ _ => exact absurd way turned
      | suspended stack _ _ _ => exact absurd stack idle
      | ended stack _ _ _ _ _ | bodyFailed stack _ _ _ => exact absurd stack silent
      | bodyless hc _ _ _ _ => exact absurd hc bodyless
      | collected way next _ _ _ _ _ =>
        -- the job does not wait any more
        obtain ⟨i, st, stack, collecting'⟩ := step.sound.collecting way
        obtain rfl := own (step.sound.fits_of_collecting collecting').1
        exact nomatch h.eq_of_has step.sound' (.next stack next)
    refine ⟨keeps.1, keeps.2.1, keeps.2.2, fun d hd => ?_⟩
    rw [step.onward.dependencies r linked] at hd
    exact turns.cleared_step staged step (cleared d hd)
  · cases new with
    | deferred _ way _ state' _ record =>
      cases state.symm.trans state'
      obtain ⟨_, inert, before, dependencies, cleared⟩ := turns.of_turn way
      have hr : r < m.store.records.size := (staged.linked r (by rw [inert.1]; trivial)).1
      rw [record hr]
      refine ⟨rfl, by simp [inert.1], by simp [inert.1], fun d hd => ?_⟩
      rw [List.append_nil] at dependencies
      rw [dependencies] at hd
      exact turns.cleared_step staged step (cleared d hd)
    | instantiate _ _ _ state' | link _ _ _ state' | graph _ _ _ state' | turn _ _ _ _ state' _
        | ready _ _ _ _ state' => exact nomatch state.symm.trans state'

/-- The jobs that a module waits for are looked at first, or when one of them has been polled. -/
theorem Collects.control {st' : List (Frame C)} {c : Control C}
    (way : Collects s st c r jobs g s₁ st') :
    c = .work (.executeAfter r jobs g) ∨ ∃ outcome, c = .polled outcome := by
  cases way with
  | starts => exact .inl rfl
  | settles => exact .inr ⟨_, rfl⟩

/-- A job that takes up a body has it left no more. -/
private theorem SoundStep.not_has_of_runBody (step : SoundStep host ρ ρ' m m') {body : Option C}
    (stack : m.stack = .advancing j :: st) (hc : m.control = .work (.runBody r body)) :
    ¬ m'.Has j (.runBody r body) := by
  have comes : ¬ Continues m m' (.runBody r body) := by
    intro continues
    generalize hw : Work.runBody r body = w at continues
    cases continues with
    | collected way _ _ _ _ _ =>
      rcases way.control with h | ⟨_, h⟩ <;> exact nomatch hc.symm.trans h
    | _ => exact nomatch hw
  intro has
  cases has with
  | waits state =>
    refine step.sound'.not_waiting (mem_advanced.mpr ?_) state
    refine (step.suffix_of_runBody hc).subset ?_
    rw [stack]
    exact List.mem_cons_self
  | next _ hc' =>
    rcases step.rule.next_work hc' with ⟨_, hc'', _⟩ | continues
    · exact nomatch hc.symm.trans hc''
    · exact comes continues
  | paused _ hc' => exact comes (step.rule.paused_work hc')

/-- When the turn of a module comes, its body has not been started, and its dependencies are done. -/
private theorem Turns.starts_step (turns : m.Turns ρ) (staged : m.Staged ρ) (bodies : m.Bodies)
    (tallied : m.Tallied) (orderly : ∀ g, IsOrderly (m.store.group g))
    (step : SoundStep host ρ ρ' m m') {body : Option C} (h : m'.Has j (.runBody r body)) :
    (m'.store.record r).state = .executing ∧ .bodyStarted r ∉ m'.store.milestones ∧
      ∀ d ∈ (m'.store.record r).dependencies, m'.Done d ∨ m'.Reaches d r := by
  have keeps : ∀ {d}, m.Done d ∨ m.Reaches d r → m'.Done d ∨ m'.Reaches d r := fun h =>
    h.imp (turns.done_step staged step) (step.onward.reaches_mono staged)
  have fresh : (∀ code, m.control ≠ .work (.runBody r (some code))) →
      .bodyStarted r ∉ m.store.milestones → .bodyStarted r ∉ m'.store.milestones := by
    intro hc fresh started
    rcases step.rule.happens_of_mem started trivial with started | happens
    · exact fresh started
    · cases happens with
      | bodyStarted hc' _ _ => exact hc _ hc'
  have unstarted : (m.store.record r).state ≠ .executing → (m.store.record r).state ≠ .executed →
      (m.store.record r).state.error? = none → .bodyStarted r ∉ m.store.milestones := by
    intro h₁ h₂ sound started
    rcases (bodies.started r started).state with state | state | ⟨error, state⟩
    · exact h₁ state
    · exact h₂ state
    · exact nomatch (state ▸ sound)
  rcases step.rule.comes h with has | ⟨hj, state⟩ | ⟨_, continues⟩
  · obtain ⟨state, new, below⟩ := turns.starts j r body has
    cases has with
    | waits waits =>
      have hc := bodies.polled j r body waits
      obtain ⟨_, _, record, _⟩ := step.of_poll hc waits
      rw [record]
      exact ⟨state, fresh (by simp [hc]) new, fun d hd => keeps (below d hd)⟩
    | next stack hc => exact absurd h (step.not_has_of_runBody stack hc)
    | paused _ hc =>
      have control := step.sound.control
      rw [hc] at control
      obtain ⟨_, _, _, pauses⟩ := control
      exact pauses.elim
  · cases step.newJob hj state with
    | turn _ way _ next state' taken =>
      cases state.symm.trans state'
      obtain ⟨_, inert, before, dependencies, cleared⟩ := turns.of_turn way
      have hr : r < m.store.records.size := (staged.linked r (by rw [inert.1]; trivial)).1
      rw [taken.record hr]
      refine ⟨by simp [Record.state_enter, inert.1, ModuleState.error?], fresh (fun code hc => ?_)
        (unstarted (by simp [inert.1]) (by simp [inert.1]) (by simp [inert.1, ModuleState.error?])),
        fun d hd => ?_⟩
      · have walking := way.isWalking
        rw [hc] at walking
        exact walking.elim
      · rw [List.append_nil] at dependencies
        simp only [Record.enter_same, dependencies] at hd
        rcases cleared d hd with done | ⟨_, hi, _⟩ | reaches
        · exact keeps (.inl done)
        · cases hi
        · exact keeps (.inr reaches)
    | instantiate _ _ _ state' | link _ _ _ state' | graph _ _ _ state' | deferred _ _ _ state' _ _
        | ready _ _ _ _ state' => cases state.symm.trans state'
  · generalize hw : Work.runBody r body = w at continues
    cases continues with
    | @collected r' jobs g s way clean done _ sound taken =>
      obtain ⟨rfl, rfl⟩ := Work.runBody.inj hw
      obtain ⟨i, _, _, collecting⟩ := step.sound.collecting way
      obtain ⟨_, h₁, h₂, cleared⟩ := turns.collects i r jobs g collecting
      obtain ⟨is, _, _⟩ := step.sound.fits_of_collecting collecting
      rw [taken.record (staged.executes i r is).1]
      refine ⟨by simp [Record.state_enter, sound], fresh (fun code hc => ?_)
        (unstarted h₁ h₂ sound), fun d hd => ?_⟩
      · rcases way.control with h | ⟨_, h⟩ <;> cases hc.symm.trans h
      simp only [Record.enter_same] at hd
      rcases cleared d hd with done' | ⟨i, hi, is⟩ | reaches
      · exact keeps (.inl done')
      · have finished := tallied.succeeded step.sound (orderly g) way clean done i hi
        exact keeps (.inl (turns.ended i d is (.inl finished)))
      · exact keeps (.inr reaches)
    | _ => cases hw

private theorem Turns.ended_step (turns : m.Turns ρ) (staged : m.Staged ρ)
    (step : SoundStep host ρ ρ' m m') (is' : ρ'.Is j (.execute r)) (h : m'.Ends j (.ok ())) :
    m'.Done r := by
  rcases step.executes_cases is' with is | ⟨new, _⟩
  · rcases step.ends_cases (step.sound.lt_of_is is) h with ends | ⟨next, st, stack⟩
    · exact turns.done_step staged step (turns.ended j r is ends)
    · cases step.rule.stops step.sound is next stack with
      | body _ _ _ milestones => exact .inl (by rw [milestones rfl]; exact List.mem_cons_self)
      | bodyless hc _ executed =>
        obtain ⟨i, _, _, has⟩ := step.sound.has_of_work hc
        have sound : (m.store.record r).state.error? = none := by
          rw [(turns.starts i r none has).1]
          rfl
        exact turns.done_of_bodyless step hc (executed rfl (staged.executes j r is).1 sound)
      | collects _ failed => exact absurd rfl failed
  · obtain ⟨_, _, same⟩ := step.ready_of_ends is' (Nat.le_of_eq new.symm) h
    exact nomatch same

private theorem Turns.settled_step (turns : m.Turns ρ) (staged : m.Staged ρ)
    (step : SoundStep host ρ ρ' m m') {outcome : Outcome} (is' : ρ'.Is j (.execute r))
    (h : m'.Ends j outcome) (alive' : m'.store.isAlive r = true) :
    (m'.store.record r).state ≠ .executing := by
  have alive : m.store.isAlive r = true := by rwa [step.rule.isAlive] at alive'
  rcases step.executes_cases is' with is | ⟨new, _⟩
  swap
  · obtain ⟨_, _, same⟩ := step.ready_of_ends is' (Nat.le_of_eq new.symm) h
    exact nomatch same
  have linked : m.Linked r := staged.executes j r is
  intro executing
  rcases step.ends_cases (step.sound.lt_of_is is) h with ends | ⟨next, st, stack⟩
  · cases (step.rule.recordChange linked.1).transition with
    | stays state => exact turns.settled j r outcome is ends alive (state ▸ executing)
    | comes way _ _ _ _ _ => exact turns.engaged j r is (turns.of_turn way).2.1
    | collected way _ _ _ _ =>
      -- the job waits for others, and so it has not ended
      obtain ⟨i, st, stack, collecting⟩ := step.sound.collecting way
      obtain rfl := turns.single i j r (step.sound.fits_of_collecting collecting).1 is
      rcases ends with finished | ⟨hc, _⟩
      · have running := (step.sound.running i).mpr (mem_advanced.mpr
          (way.suffix.subset (by rw [stack]; exact List.mem_cons_self)))
        exact nomatch running.symm.trans finished
      · rcases way.control with h | ⟨_, h⟩ <;> exact nomatch hc.symm.trans h
    | fails _ _ state | hooked _ _ _ state | attached _ _ _ state | ended _ _ _ _ _ state
        | bodyless _ _ _ _ state => exact nomatch executing.symm.trans state
  · cases step.rule.stops step.sound is next stack with
    | body _ _ state _ | bodyless _ state _ => exact state alive linked.1 executing
    | collects way _ =>
      obtain ⟨i, _, _, collecting⟩ := step.sound.collecting way
      have unstarted := (turns.collects i r _ _ collecting).2.1
      cases (step.rule.recordChange linked.1).transition with
      | stays state => exact unstarted (state ▸ executing)
      | comes _ _ next' _ _ _ | collected _ next' _ _ _ => exact nomatch next.symm.trans next'
      | fails _ _ state | hooked _ _ _ state | attached _ _ _ state | ended _ _ _ _ _ state
          | bodyless _ _ _ _ state => exact nomatch executing.symm.trans state

private theorem Turns.executed_step (turns : m.Turns ρ) (staged : m.Staged ρ) (bodies : m.Bodies)
    (step : SoundStep host ρ ρ' m m') (executed : (m'.store.record r).state = .executed) :
    m'.Done r := by
  rcases Nat.lt_or_ge r m.store.records.size with hr | hr
  · cases (step.rule.recordChange hr).transition with
    | stays state => exact turns.done_step staged step (turns.executed r (state ▸ executed))
    | ended _ _ _ milestones _ _ => exact .inl (by rw [milestones]; exact List.mem_cons_self)
    | bodyless hc _ _ _ state => exact turns.done_of_bodyless step hc state
    | fails _ _ state | hooked _ _ _ state | attached _ _ _ state | comes _ _ _ _ _ state
        | collected _ _ _ _ state => exact nomatch executed.symm.trans state
  · -- a module that has been defined has no body
    refine .inr ⟨executed, fun started => ?_⟩
    have lt : ∀ {r'}, m.Begun r' → r' < m.store.records.size := fun begun => begun.linked.1
    rcases step.rule.happens_of_mem started trivial with started | happens
    · exact Nat.not_lt_of_le hr (lt (bodies.started r started))
    · cases happens with
      | bodyStarted hc _ _ =>
        obtain ⟨j, _, _, has⟩ := step.sound.has_of_work hc
        exact Nat.not_lt_of_le hr (lt (bodies.running j r _ has))

/-- A first attempt that is polled for stays. -/
private theorem SoundStep.suffix_of_poll (step : SoundStep host ρ ρ' m m')
    (hc : m.control = .poll j) : m.stack <:+ m'.stack := by
  rw [step.next]
  simp only [Machine.step, hc, poll]
  split
  · exact List.suffix_refl _
  · exact List.suffix_refl _
  · exact List.suffix_cons _ _
  · exact List.suffix_refl _

/-- What comes next when a first attempt is the innermost activity. -/
theorem fits_executing {c : Control C} (h : c.Fits ρ s (.executing r i seen :: st)) :
    ρ.Is i (.execute r) ∧ (c = .poll i ∨ (∃ outcome, c = .polled outcome ∧
      ∀ o, outcome = some o → (s.job i).state = .finished o) ∨ c = .unwind) := by
  obtain ⟨slot, awaits⟩ := h.awaits
  obtain _ | ⟨fits, _⟩ := awaits
  cases fits with
  | executing is =>
    refine ⟨is, ?_⟩
    cases c with
    | poll j =>
      obtain _ | ⟨⟨_⟩, _⟩ := h
      exact .inl rfl
    | polled outcome =>
      obtain ⟨j, _ | ⟨⟨_⟩, _⟩, finished⟩ := h
      exact .inr (.inl ⟨outcome, rfl, finished⟩)
    | unwind => exact .inr (.inr rfl)
    | host _ | drain | drained | serve _ => obtain _ | ⟨⟨_⟩, _⟩ := h
    | reply _ => obtain ⟨_ | ⟨⟨_⟩, _⟩, _⟩ := h
    | ended _ => obtain ⟨_, _ | ⟨⟨_⟩, _⟩⟩ := h
    | work _ | paused _ | visit _ _ => obtain ⟨_, _ | ⟨⟨_⟩, _⟩, _⟩ := h
    | visited _ _ => obtain ⟨_, _, _ | ⟨⟨_⟩, _⟩, _⟩ := h
    | linked _ _ => obtain ⟨_, _, _, _ | ⟨⟨_⟩, _⟩, _⟩ := h
    | link node _ =>
      obtain ⟨j, path, awaits, _⟩ := h
      generalize hslot : Slot.linked j path node.module = slot at awaits
      obtain _ | ⟨⟨_⟩, _⟩ := awaits
      exact nomatch hslot

/-- A module whose first attempt is being made waits for it, or has a job afterwards. -/
private theorem Turns.attempting_step (turns : m.Turns ρ) (staged : m.Staged ρ)
    (step : SoundStep host ρ ρ' m m') (executing : (m.store.record r).state = .executing)
    (mem : .executing r i seen ∈ m.stack) : (m'.store.record r).evaluation ≠ none ∨
      ∃ i seen, .executing r i seen ∈ m'.stack := by
  obtain ⟨above, st, stack⟩ := List.append_of_mem mem
  have below : .executing r i seen :: st <:+ m.stack := ⟨above, stack.symm⟩
  by_cases top : m.stack = .executing r i seen :: st
  swap
  · exact .inr ⟨i, seen, (step.rule.suffix below top).subset List.mem_cons_self⟩
  have alive := (turns.executing r i seen st below).alive
  have control := step.sound.control
  rw [top] at control
  obtain ⟨is, hc | ⟨outcome, hc, finished⟩ | hc⟩ := fits_executing control
  · exact .inr ⟨i, seen, (step.suffix_of_poll hc).subset mem⟩
  · cases outcome with
    | some outcome =>
      exact absurd executing (turns.settled i r outcome is (.inl (finished outcome rfl)) alive)
    | none =>
      refine .inl ?_
      rw [step.next]
      simp only [Machine.step, hc, Machine.polled, top, attempted, pop, mapStore, Machine.next]
      rw [record_update_self (staged.executes i r is).1]
      exact Option.some_ne_none _
  · exact absurd top (turns.unwinds hc r i seen st)

private theorem Turns.waits_step (turns : m.Turns ρ) (staged : m.Staged ρ)
    (step : SoundStep host ρ ρ' m m') (executing : (m'.store.record r).state = .executing) :
    (m'.store.record r).evaluation ≠ none ∨ ∃ i seen, .executing r i seen ∈ m'.stack := by
  have stays : (m'.store.record r).state = (m.store.record r).state →
      (m'.store.record r).evaluation = (m.store.record r).evaluation →
      (m'.store.record r).evaluation ≠ none ∨ ∃ i seen, .executing r i seen ∈ m'.stack := by
    intro state evaluation
    rcases turns.waits r (state ▸ executing) with waits | ⟨i, seen, mem⟩
    · exact .inl (evaluation ▸ waits)
    · exact turns.attempting_step staged step (state ▸ executing) mem
  have entered : ∀ {x : Record C} {state : ModuleState}, (x.enter state).state = .executing →
      state = .executing := by
    intro x state h
    rcases Record.state_enter_cases with h' | ⟨_, _, h'⟩
    · exact h'.symm.trans h
    · exact nomatch h'.symm.trans h
  rcases Nat.lt_or_ge r m.store.records.size with hr | hr
  · cases step.rule.recordChange hr with
    | same record => exact stays record.state record.evaluation
    | imported _ _ _ _ _ record | adopted _ _ _ _ _ record =>
      exact stays (by rw [record]) (by rw [record])
    | deferred _ _ _ record | suspended _ _ _ record => exact .inl (by simp [record])
    | comes _ stack _ _ _ => exact .inr ⟨_, _, by rw [stack]; exact List.mem_cons_self⟩
    | collected way _ _ _ _ _ record =>
      obtain ⟨j, _, _, collecting⟩ := step.sound.collecting way
      exact .inl (by simp [record, (turns.collects j r _ _ collecting).1])
    | failed _ _ record | bodyFailed _ _ _ record =>
      rw [record] at executing
      rcases Record.state_poison_cases with h | ⟨_, h⟩ <;> exact nomatch h.symm.trans executing
    | hooked _ _ _ _ record | attached _ _ _ record | ended _ _ _ _ _ record
        | bodyless _ _ _ _ record =>
      rw [record] at executing
      exact nomatch entered executing
  · rcases Nat.lt_or_ge r m'.store.records.size with hr' | hr'
    · cases step.rule.makes.newRecord hr hr' with
      | made record _ _ _ | defined _ record _ _ => simp [record] at executing
    · simp [record_of_size_le hr', Record.blank] at executing

/-- Host code that gives up has its job given up before the first attempt at it. -/
private theorem SoundStep.not_executing_of_unwind (step : SoundStep host ρ ρ' m m')
    (holds : m.hostGivesUp = false) (kept : ∀ j, (m.store.job j).state ≠ .abandoned)
    (next : m'.control = .unwind) :
    m'.stack ≠ .executing r i seen :: st := by
  intro stack
  have rule := step.rule
  have sound := step.sound
  have below : ∀ {frame}, m.stack = frame :: .executing r i seen :: st → frame = .advancing i := by
    intro frame stack
    obtain ⟨slot, awaits⟩ := sound.control.awaits
    rw [stack] at awaits
    obtain _ | ⟨fits, _ | ⟨⟨_⟩, _⟩⟩ := awaits
    cases fits
    rfl
  cases rule
  case move move =>
    cases move
    case pollAbandoned j h => exact kept j h
    case unwinds h h' h'' =>
      dsimp only at stack
      subst stack
      exact h' i (below rfl)
    all_goals exact nomatch next
  case givesUp =>
    dsimp only at stack
    subst stack
    rcases (fits_executing sound.control).2 with h | ⟨_, h, _⟩ | h <;> exact nomatch h
  case publishes way => rcases way.control with h | h <;> exact nomatch h.symm.trans next
  case handsOver after => rcases after.control with h | h <;> exact nomatch h.symm.trans next
  case drainAborted | setterAborted =>
    dsimp only at stack
    subst stack
    exact nomatch below rfl
  case jobAborted => exact nomatch holds
  all_goals exact nomatch next

end Jobs

/-! ### Runs -/

/-- Host code neither polls an import nor gives up within one. -/
structure Calm (m : Machine C M) : Prop where
  quiet : m.hostPolls = false
  holds : m.hostGivesUp = false

section Runs

variable {host : Host C M} {ρ ρ' : Roles} {m m' : Machine C M} {trace : List (Machine C M)}

private theorem Turns.step (turns : m.Turns ρ) (traced : Traced host ρ (m :: trace))
    (step : SoundStep host ρ ρ' m m') (calm : ∀ x ∈ m' :: m :: trace, x.Calm) : m'.Turns ρ' := by
  have staged := traced.staged
  have before : ∀ x ∈ m :: trace, x.Calm := fun x hx => calm x (List.mem_cons_of_mem _ hx)
  have flat : IsFlat m.stack := traced.isFlat fun x hx => (before x hx).quiet
  have kept : ∀ j, (m.store.job j).state ≠ .abandoned :=
    fun _ => traced.not_abandoned fun x hx => (before x hx).holds
  exact
    { single := fun _ _ _ hi hj => turns.single_step step hi hj
      engaged := fun _ _ is => turns.engaged_step staged step is
      collects := fun _ _ _ _ h => turns.collects_step staged step h
      visit := fun _ _ next => turns.visit_step staged traced.living step next
      visited := fun _ _ next => turns.visited_step staged traced.barred flat step next
      executing := fun _ _ _ _ below => turns.executing_step staged flat step below
      starts := fun _ _ _ h =>
        turns.starts_step staged traced.bodies traced.tallied traced.orderly step h
      ended := fun _ _ is h => turns.ended_step staged step is h
      settled := fun _ _ _ is h alive => turns.settled_step staged step is h alive
      executed := fun _ state => turns.executed_step staged traced.bodies step state
      waits := fun _ state => turns.waits_step staged step state
      unwinds := fun next _ _ _ _ => step.not_executing_of_unwind
        (before m List.mem_cons_self).holds kept next }

private theorem Turns.pause (turns : m.Turns ρ) (traced : Traced host ρ (m :: trace))
    (pause : SoundPause ρ m m') : m'.Turns ρ := by
  have kept := pause.change.kept
  have empty : ∀ {frame : Frame C}, frame ∉ m'.stack := by simp [pause.stack]
  have control : ∀ {c}, m'.control = c → (∃ reply, c = .reply reply) ∨ ∃ request, c = .serve request := by
    rintro _ rfl
    exact pause.control
  have done : ∀ {r}, m'.Done r ↔ m.Done r := by
    intro r
    rw [Done, Done, kept.record, kept.milestones]
  have reaches : m'.Reaches = m.Reaches := by
    unfold Reaches
    rw [kept.record]
  have collecting : ∀ {j r jobs g}, m'.Collecting j r jobs g → m.Collecting j r jobs g := by
    intro j r jobs g h
    cases h with
    | left has => exact .left (pause.has has)
    | about below => exact absurd (below.subset List.mem_cons_self) empty
  refine ⟨turns.single, fun j r is => ?_, fun j r jobs g h => ?_, fun _ _ hc => ?_,
    fun _ _ hc => ?_, fun _ _ _ _ below => absurd (below.subset List.mem_cons_self) empty,
    fun j r body h => ?_, fun j r is ends => ?_, fun j r outcome is ends alive' => ?_, fun r => ?_,
    fun r => ?_, fun hc => ?_⟩
  · rw [Inert, kept.record]
    exact turns.engaged j r is
  · simp only [kept.record, Cleared, done, reaches]
    exact turns.collects j r jobs g (collecting h)
  · rcases control hc with ⟨_, h⟩ | ⟨_, h⟩ <;> cases h
  · rcases control hc with ⟨_, h⟩ | ⟨_, h⟩ <;> cases h
  · simp only [kept.record, kept.milestones, done, reaches]
    exact turns.starts j r body (pause.has h)
  · exact done.mpr (turns.ended j r is (pause.ends.mp ends))
  · have known : r < m.store.records.size := (traced.staged.executes j r is).1
    rw [kept.record]
    refine turns.settled j r outcome is (pause.ends.mp ends) ?_
    rcases kept.loader with ⟨_, retired⟩ | ⟨_, retired⟩
    · rwa [Store.isAlive, retired] at alive'
    · rw [isAlive_eq_true, retired] at alive'
      exact absurd known (Nat.not_lt_of_le alive')
  · rw [kept.record, done]
    exact turns.executed r
  · rw [kept.record]
    intro state
    rcases turns.waits r state with waits | ⟨i, seen, mem⟩
    · exact .inl waits
    · obtain ⟨stack, _⟩ := reply?_isSome.mp pause.rests
      rw [stack] at mem
      cases mem
  · rcases control hc with ⟨_, h⟩ | ⟨_, h⟩ <;> cases h

private theorem turns_start (base : Option Url) (resolver : Resolver) (memory : M) :
    ({ store := { base, resolver }, memory } : Machine C M).Turns {} where
  single _ _ _ is := absurd is.lt (Nat.not_lt_zero _)
  engaged _ _ is := absurd is.lt (Nat.not_lt_zero _)
  collects _ _ _ _ h := by
    cases h with
    | left has => exact absurd has not_has_start
    | about below => exact nomatch List.suffix_nil.mp below
  visit _ _ hc := nomatch hc
  visited _ _ hc := nomatch hc
  executing _ _ _ _ below := nomatch List.suffix_nil.mp below
  starts _ _ _ has := absurd has not_has_start
  ended _ _ is := absurd is.lt (Nat.not_lt_zero _)
  settled _ _ _ is := absurd is.lt (Nat.not_lt_zero _)
  executed r state := by
    dsimp only at state
    rw [record_start] at state
    exact nomatch state
  waits r state := by
    dsimp only at state
    rw [record_start] at state
    exact nomatch state
  unwinds hc := nomatch hc

/-- The turns of modules come in order, in every run in which host code neither polls imports nor
gives up within one. -/
theorem Traced.turns (h : Traced host ρ (m :: trace)) (calm : ∀ x ∈ m :: trace, x.Calm) :
    m.Turns ρ :=
  h.invariant_of (P := fun ρ m => m.Turns ρ) turns_start
    (fun traced calm step turns => turns.step traced step calm)
    (fun traced pause turns => turns.pause traced pause) calm

end Runs

end Machine

end ModuleSystem.Loader
