import ModuleSystem.Proofs.Loader.Blocking
import ModuleSystem.Proofs.Loader.Faults

/-!
# Causes of failures

A module that fails has an error of its own, or the error comes to it from a dependency. On this way
an error passes jobs, groups and walks, and other imports go on meanwhile. So what is shown here is
that every error that is about, in a record, as the outcome of a job, in a group or on the way back
in a walk, goes back along dependencies to a module whose own error it is (`Machine.Caused`,
`Machine.Accounted`). The modules on the way have failed with the same error, unless they have been
executed: an executed module does not fail any more, and yet the error is handed on.

## Main definitions

* `Machine.Requires` : one of the specifiers of a module has been resolved to another.
* `Machine.Inherits` : a module may have an error from another one.
* `Machine.Caused` : an error goes back to a module whose own it is.
* `Machine.Accounted` : all errors do.

## Main results

* `Machine.Run.caused` : the error of every failed module does, in every run.
-/

namespace ModuleSystem.Loader

variable {C M : Type}

namespace Machine

open Store

/-- One of the specifiers of a module has been resolved to another module. -/
def Requires (states : List (Machine C M)) (r d : RecordId) : Prop :=
  ∃ m m' earlier dependencies, m' :: m :: earlier <:+ states ∧ Resolves m m' r dependencies ∧
    d ∈ dependencies.map Dependency.module

/-- A module has failed with an error, or it has been executed. -/
def Bears (states : List (Machine C M)) (error : LoaderError) (r : RecordId) : Prop :=
  ∃ m ∈ states, (m.store.record r).state = .failed error ∨ (m.store.record r).state = .executed

/-- An error that a module bears is its own, or is borne by a module that it requires and goes back
from there. -/
inductive Caused (states : List (Machine C M)) (error : LoaderError) : RecordId → Prop
  | own {r m} (bears : Bears states error r) (mem : m ∈ states)
      (known : r < m.store.records.size) (own : m.store.IsOwn r error) : Caused states error r
  | passed {r d} (bears : Bears states error r) (edge : Requires states r d)
      (cause : Caused states error d) : Caused states error r

/-- A module may have an error from another one that it requires: this has failed with the error,
unless it is executed, or its turn has come once more after that. -/
def Inherits (m : Machine C M) (trace : List (Machine C M)) (error : LoaderError)
    (r d : RecordId) : Prop :=
  Requires (m :: trace) r d ∧
    (m.store.stateOf d = .failed error ∨ m.store.stateOf d = .executed ∨ m.Repeats d)

section Growing

variable {host : Host C M} {ρ ρ' : Roles} {m m' : Machine C M} {trace states : List (Machine C M)}
  {error : LoaderError} {r d : RecordId}

theorem Requires.cons (h : Requires states r d) : Requires (m :: states) r d := by
  obtain ⟨w, w', earlier, dependencies, below, resolves, member⟩ := h
  exact ⟨w, w', earlier, dependencies, below.trans (List.suffix_cons _ _), resolves, member⟩

theorem Bears.cons (h : Bears states error r) : Bears (m :: states) error r :=
  h.imp fun _ ⟨mem, bears⟩ => ⟨List.mem_cons_of_mem _ mem, bears⟩

theorem Caused.cons (h : Caused states error r) : Caused (m :: states) error r := by
  induction h with
  | own bears mem known own => exact .own bears.cons (List.mem_cons_of_mem _ mem) known own
  | passed bears edge _ ih => exact .passed bears.cons edge.cons ih

/-- A module that is being linked requires its dependencies. -/
theorem Traced.requires_of_carries (h : Traced host ρ (m :: trace))
    {dependencies left : List Dependency} (carries : m.Carries r dependencies left)
    (hd : d ∈ dependencies.map Dependency.module) : Requires (m :: trace) r d := by
  obtain ⟨w, w', earlier, below, resolves, _⟩ := h.resolved carries
  exact ⟨w, w', earlier, dependencies, below, resolves, hd⟩

/-- A module that is linked requires its dependencies. -/
theorem Traced.requires (h : Traced host ρ (m :: trace)) (hd : d ∈ (m.store.record r).dependencies) :
    Requires (m :: trace) r d := by
  generalize hl : m :: trace = states at h
  induction h generalizing m trace with
  | start base resolver memory =>
    cases hl
    rw [record_start] at hd
    exact nomatch hd
  | @step ρ ρ' m m' trace traced step ih =>
    cases hl
    rcases Nat.lt_or_ge r m.store.records.size with known | new
    · cases step.rule.recordChange known with
      | same record => exact (ih (by rwa [record.dependencies] at hd) rfl).cons
      | failed _ same record =>
        refine (ih ?_ rfl).cons
        simpa only [record, Record.poison_same, same.dependencies] using hd
      | attached way _ _ record =>
        simp only [record, Record.enter_same] at hd
        exact (traced.requires_of_carries (way.carries step.sound) hd).cons
      | imported _ _ _ _ _ record | hooked _ _ _ _ record | adopted _ _ _ _ _ record
          | deferred _ _ _ record | comes _ _ _ _ record | collected _ _ _ _ _ _ record
          | suspended _ _ _ record | ended _ _ _ _ _ record | bodyless _ _ _ _ record
          | bodyFailed _ _ _ record => exact (ih (by simpa [record] using hd) rfl).cons
    · rcases Nat.lt_or_ge r m'.store.records.size with known | unknown
      · cases step.rule.makes.newRecord new known with
        | made record _ _ _ | defined _ record _ _ => simp [record] at hd
      · simp [record_of_size_le unknown, Record.blank] at hd
  | outside traced pause ih =>
    cases hl
    rw [pause.change.kept.record] at hd
    exact (ih hd rfl).cons

end Growing

/-! ### Places of groups -/

/-- A place of a job is that of a module: at the root the one that the job is for, and below a
module its dependencies, in order. -/
inductive At (ρ : Roles) (m : Machine C M) (j : JobId) : List Nat → RecordId → Prop
  | root {kind r} (is : ρ.Is j kind) (module : kind.module = r) : At ρ m j [] r
  | child {path r d} {i : Nat} (above : At ρ m j path r) (linked : m.Linked r)
      (member : (m.store.record r).dependencies[i]? = some d) : At ρ m j (path ++ [i]) d

section Places

variable {host : Host C M} {ρ ρ' : Roles} {m m' : Machine C M} {j : JobId} {path : List Nat}
  {r r' : RecordId} {seen : List RecordId} {st : List (Frame C)} {children : List LinkNode}
  {g : GroupId} {s : Store C}

/-- A place is that of one module only. -/
theorem At.eq (h : At ρ m j path r) (h' : At ρ m j path r') : r = r' := by
  induction h generalizing r' with
  | root is module =>
    generalize hp : ([] : List Nat) = p at h'
    cases h' with
    | root is' module' => rw [← module, ← module', is.eq is']
    | child _ _ _ => simp at hp
  | @child path r d i _ _ member ih =>
    generalize hp : path ++ [i] = p at h'
    cases h' with
    | root _ _ => simp at hp
    | child above _ member' =>
      obtain ⟨rfl, same⟩ := List.append_inj' hp rfl
      cases same
      obtain rfl := ih above
      exact Option.some.inj (member.symm.trans member')

theorem At.step (h : At ρ m j path r) (step : SoundStep host ρ ρ' m m') : At ρ' m' j path r := by
  induction h with
  | root is module => exact .root (is.mono step.follow.le) module
  | child _ linked member ih =>
    exact .child ih (step.linked linked) (by rwa [step.onward.dependencies _ linked])

theorem At.pause (h : At ρ m j path r) (pause : SoundPause ρ m m') : At ρ m' j path r := by
  induction h with
  | root is module => exact .root is module
  | child _ linked member ih =>
    exact .child ih (pause.linked.mpr linked) (by rwa [pause.change.kept.record])

/-- A walk that links a graph is at the place of the module that it is at. -/
theorem At.of_goodBelow (awaits : Awaits ρ (.linked j path r) st) (good : GoodBelow m seen st) :
    At ρ m j path r := by
  induction good generalizing path r with
  | graph =>
    rcases awaits with _ | ⟨fits, _⟩
    cases fits with
    | linkingGraph is => exact .root is rfl
  | children family _ _ _ ih =>
    rcases awaits with _ | ⟨fits, below⟩
    cases fits with
    | linkingChildren _ _ member =>
      refine .child (ih below) family.linked ?_
      rw [← family.modules, List.getElem?_map, member]
      rfl

/-- A walk that looks at the dependencies of a module is in order around it. -/
theorem Gathers.goodBelow (way : Gathers m.store m.stack m.control r children g seen s st)
    (walking : m.Walking) : GoodBelow m seen st ∧ m.Linked r := by
  unfold Walking at walking
  generalize m.stack = stack at way walking
  generalize m.control = c at way walking
  cases way with
  | starts l =>
    obtain ⟨good, below, _⟩ := walking
    cases good with
    | join family _ => exact ⟨below, family.linked⟩
  | waits l =>
    cases walking.below with
    | children family _ _ below => exact ⟨below, family.linked⟩
  | ends l =>
    cases walking.below with
    | children family _ _ below => exact ⟨below, family.linked⟩
  | fails l =>
    cases walking with
    | children family _ _ below => exact ⟨below, family.linked⟩

end Places

/-! ### Jobs that are waited for -/

section Collecting

variable {host : Host C M} {ρ : Roles} {m : Machine C M} {trace : List (Machine C M)} {r : RecordId}
  {j : JobId} {jobs : List JobId} {g : GroupId}

/-- The jobs that a module waits for execute dependencies of it. -/
theorem Traced.executes_of_collecting (h : Traced host ρ (m :: trace))
    (collecting : m.Collecting j r jobs g) :
    ∀ i ∈ jobs, ∃ d ∈ (m.store.record r).dependencies, ρ.Is i (.execute d) := by
  refine h.invariant (P := fun ρ m => ∀ j r jobs g, m.Collecting j r jobs g →
    ∀ i ∈ jobs, ∃ d ∈ (m.store.record r).dependencies, ρ.Is i (.execute d)) ?_ ?_ ?_ j r jobs g
    collecting
  · rintro base resolver memory j r jobs g (has | below)
    · exact absurd has not_has_start
    · exact nomatch List.suffix_nil.mp below
  · intro ρ ρ' m m' trace traced step ih j r jobs g collecting i hi
    rcases step.collecting_cases collecting with before | ⟨new, state⟩
    · obtain ⟨is, _, _⟩ := step.sound.fits_of_collecting before
      obtain ⟨d, hd, executes⟩ := ih j r jobs g before i hi
      refine ⟨d, ?_, executes.mono step.follow.le⟩
      rwa [step.onward.dependencies r (traced.staged.executes j r is)]
    · cases new with
      | deferred _ way _ state' _ _ =>
        cases state.symm.trans state'
        obtain ⟨d, hd, executes⟩ := (traced.descending.of_turn way).2.2 i hi
        refine ⟨d, ?_, executes.mono step.follow.le⟩
        rwa [step.onward.dependencies r (traced.staged.of_turn way)]
      | instantiate _ _ _ state' | link _ _ _ state' | graph _ _ _ state' | turn _ _ _ _ state' _
          | ready _ _ _ _ state' => exact nomatch state.symm.trans state'
  · intro ρ m m' trace traced pause ih j r jobs g collecting
    rw [pause.change.kept.record]
    refine ih j r jobs g ?_
    rcases collecting with has | below
    · exact .left (pause.has has)
    · rw [pause.stack] at below
      exact nomatch List.suffix_nil.mp below

end Collecting

/-! ### Errors that are accounted for -/

/-- An error goes back to a dependency of the module that a group is for. -/
def Taints (ρ : Roles) (m : Machine C M) (states : List (Machine C M)) (g : GroupId)
    (error : LoaderError) : Prop :=
  ∃ j path r, ρ.Owns j path g ∧ At ρ m j path r ∧
    (m.store.isAlive r = true → ∃ d, Requires states r d ∧ Caused states error d)

/-- Wherever an error is about, it goes back to a module whose own it is, as long as the loader of
the module that it is about is still there. -/
structure Accounted (ρ : Roles) (m : Machine C M) (states : List (Machine C M)) : Prop where
  failed : ∀ r error, m.store.isAlive r = true → (m.store.record r).state = .failed error →
    Caused states error r
  ended : ∀ j kind error, ρ.Is j kind → m.Ends j (.error error) →
    m.store.isAlive kind.module = true → Caused states error kind.module
  linked : ∀ error seen, m.control = .linked (.error error) seen →
    ∃ j path r, Awaits ρ (.linked j path r) m.stack ∧
      (m.store.isAlive r = true → Caused states error r)
  visited : ∀ error seen, m.control = .visited (.error error) seen →
    ∃ j r, Awaits ρ (.visited j r) m.stack ∧ Descends ρ m r m.stack ∧
      (m.store.isAlive r = true → Caused states error r)
  groups : ∀ g error, some error ∈ (m.store.group g).errors → Taints ρ m states g error

section Accounted

variable {host : Host C M} {ρ ρ' : Roles} {m m' : Machine C M} {trace : List (Machine C M)}
  {j : JobId} {r : RecordId} {error : LoaderError} {g : GroupId} {s : Store C}
  {states : List (Machine C M)} {st : List (Frame C)} {seen : List RecordId}

/-- The error that a group fails with is that of one of its members. -/
theorem mem_errors_of_failure? {x : Group} (h : x.failure? = some error) :
    some error ∈ x.errors := by
  obtain ⟨e, mem, same⟩ := List.exists_of_findSome?_eq_some h
  obtain rfl : e = some error := same
  split_ifs at mem with many
  · exact List.mem_of_mem_take mem
  · exact mem

theorem Taints.step (h : Taints ρ m states g error) (step : SoundStep host ρ ρ' m m') :
    Taints ρ' m' (m' :: states) g error := by
  obtain ⟨j, path, r, owner, place, cause⟩ := h
  refine ⟨j, path, r, owner.mono step.follow.le, place.step step, fun alive => ?_⟩
  rw [step.rule.isAlive] at alive
  obtain ⟨d, requires, cause⟩ := cause alive
  exact ⟨d, requires.cons, cause.cons⟩

/-- The members of groups end with errors that are accounted for. -/
theorem Accounted.of_memberEnds (accounted : m.Accounted ρ (m :: trace))
    (h : Traced host ρ (m :: trace)) {i : Nat}
    (cause : MemberEnds g i m.stack m.control (.error error)) :
    Taints ρ m (m :: trace) g error := by
  have control := h.sound.control
  have walking := h.barred.walking
  have living := h.living
  unfold Walking at walking
  generalize hst : m.stack = stack at cause control walking
  generalize hc : m.control = c at cause control walking
  cases cause with
  | @joined r dependencies st _ =>
    obtain ⟨_, _ | ⟨fits, _⟩, ended⟩ := control
    cases fits with
    | @joining _ _ _ _ _ _ dependency is owner _ member instantiation =>
      have mem : .joining r dependencies g i ∈ m.stack := by rw [hst]; exact List.mem_cons_self
      have hd := List.mem_of_getElem? member
      obtain ⟨kind, is', module⟩ := instantiation.is
      refine ⟨_, _, r, owner, .root is rfl, fun alive => ⟨dependency.module, ?_, ?_⟩⟩
      · exact h.requires_of_carries (.joining mem) (List.mem_map_of_mem hd)
      · rw [← module]
        refine accounted.ended _ kind error is' (.inl (ended _ rfl)) ?_
        rw [module]
        exact living.joining r dependencies g i mem alive dependency hd
  | @failed r children st _ seen =>
    obtain ⟨_, _, _, awaits, cause⟩ := accounted.linked error seen hc
    rw [hst] at awaits
    rcases awaits with _ | ⟨fits, below⟩
    cases fits with
    | @linkingChildren _ _ _ _ _ _ child owner _ member =>
      cases walking with
      | children family _ _ good =>
        have hd : child.module ∈ (m.store.record r).dependencies := by
          rw [← family.modules]
          exact List.mem_map_of_mem (List.mem_of_getElem? member)
        exact ⟨_, _, r, owner, .of_goodBelow below good, fun alive =>
          ⟨child.module, h.requires hd, cause (living.dependencies r alive _ hd)⟩⟩
  | @collected r jobs st _ =>
    obtain ⟨i', _ | ⟨fits, below⟩, ended⟩ := control
    cases fits with
    | executingAfter is owner _ member =>
      obtain ⟨st', rfl, _⟩ := below.of_work
      obtain ⟨d, hd, executes⟩ :=
        h.executes_of_collecting (.about ⟨[], hst.symm⟩) i' (List.mem_of_getElem? member)
      refine ⟨_, _, r, owner, .root is rfl, fun alive => ⟨d, h.requires hd, ?_⟩⟩
      exact accounted.ended i' (.execute d) error executes (.inl (ended _ rfl))
        (living.dependencies r alive d hd)

/-- What the errors of a group are after one of its members may have ended. -/
theorem Accounted.of_settling (accounted : m.Accounted ρ (m :: trace))
    (h : Traced host ρ (m :: trace)) (settling : Settling m.store m.stack m.control s g)
    (mem : some error ∈ (s.group g).errors) : Taints ρ m (m :: trace) g error := by
  cases settling with
  | same same =>
    rw [same.errors] at mem
    exact accounted.groups g error mem
  | @ended i outcome cause _ _ errors _ =>
    rw [errors] at mem
    rcases List.mem_or_eq_of_mem_set mem with mem | same
    · exact accounted.groups g error mem
    · cases outcome with
      | ok => exact nomatch same
      | error _ =>
        cases same
        exact accounted.of_memberEnds h cause

/-- A module that comes to fail has an error of its own, or one that a dependency bears. -/
theorem Accounted.of_breaks (accounted : m.Accounted ρ (m :: trace))
    (h : Traced host ρ (m :: trace)) (step : SoundStep host ρ ρ' m m')
    (alive : m.store.isAlive r = true) (breaks : Breaks m m' r error) :
    m.store.IsOwn r error ∨ ∃ d, Requires (m :: trace) r d ∧ Caused (m :: trace) error d := by
  have control := step.sound.control
  have of_group : ∀ {j path g}, ρ.Owns j path g → At ρ m j path r →
      Taints ρ m (m :: trace) g error →
      ∃ d, Requires (m :: trace) r d ∧ Caused (m :: trace) error d := by
    rintro j path g owner place ⟨j', path', r', owner', place', cause⟩
    cases Option.some.inj (owner.symm.trans owner')
    obtain rfl := place.eq place'
    exact cause alive
  cases breaks with
  | body _ _ own =>
    subst own
    exact .inl ⟨rfl, rfl⟩
  | fault fault =>
    cases fault with
    | hook _ _ own =>
      subst own
      exact .inl ⟨rfl, rfl⟩
    | unresolved _ _ own =>
      subst own
      exact .inl rfl
    | joined way _ failure =>
      obtain ⟨_, _, is, owner, _⟩ := way.awaits control
      exact .inr (of_group owner (.root is rfl)
        (accounted.of_settling h way.settling (mem_errors_of_failure? failure)))
    | gathered way failure =>
      obtain ⟨_, _, awaits, owner, _⟩ := way.awaits control
      exact .inr (of_group owner (.of_goodBelow awaits (way.goodBelow h.barred.walking).1)
        (accounted.of_settling h way.settling (mem_errors_of_failure? failure)))
    | visited stack hc =>
      obtain ⟨_, x, _, descends, cause⟩ := accounted.visited _ _ hc
      have living := descends.alive h.living
      rw [stack] at descends
      cases descends with
      | dependency _ edge _ _ _ => exact .inr ⟨x, h.requires edge, cause living⟩
    | collected way _ failure =>
      obtain ⟨_, _, is, owner, _⟩ := way.awaits control
      exact .inr (of_group owner (.root is rfl)
        (accounted.of_settling h way.settling (mem_errors_of_failure? failure)))

/-- A module that comes to fail bears an error that is accounted for. -/
theorem Accounted.caused_of_breaks (accounted : m.Accounted ρ (m :: trace))
    (h : Traced host ρ (m :: trace)) (step : SoundStep host ρ ρ' m m')
    (alive : m.store.isAlive r = true) (known : r < m.store.records.size)
    (breaks : Breaks m m' r error)
    (bears : (m'.store.record r).state = .failed error ∨ (m'.store.record r).state = .executed) :
    Caused (m' :: m :: trace) error r := by
  have bears : Bears (m' :: m :: trace) error r := ⟨m', List.mem_cons_self, bears⟩
  rcases accounted.of_breaks h step alive breaks with own | ⟨d, requires, cause⟩
  · exact .own bears (List.mem_cons_of_mem _ List.mem_cons_self) known own
  · exact .passed bears requires.cons cause.cons

/-- An error that is handed on for a module is accounted for. -/
theorem Accounted.caused_of_errs (accounted : m.Accounted ρ (m :: trace))
    (h : Traced host ρ (m :: trace)) (step : SoundStep host ρ ρ' m m')
    (alive : m.store.isAlive r = true) (errs : Errs ρ m m' r error) :
    Caused (m' :: m :: trace) error r := by
  cases errs with
  | orphaned dead => exact nomatch dead.symm.trans alive
  | stored failed => exact (accounted.failed r error alive failed).cons
  | handed is module ended =>
    subst module
    exact (accounted.ended _ _ error is (.inl ended) alive).cons
  | linked stack hc =>
    obtain ⟨_, _, _, awaits, cause⟩ := accounted.linked _ _ hc
    rw [stack] at awaits
    rcases awaits with _ | ⟨fits, _⟩
    cases fits
    exact (cause alive).cons
  | visited awaits stack hc =>
    obtain ⟨_, _, awaits', _, cause⟩ := accounted.visited _ _ hc
    rw [stack] at awaits awaits'
    obtain rfl := awaits.eq_of_visited awaits'
    exact (cause alive).cons
  | breaks known cause bears => exact accounted.caused_of_breaks h step alive known cause bears

private theorem Accounted.ended_step (accounted : m.Accounted ρ (m :: trace))
    (h : Traced host ρ (m :: trace)) (step : SoundStep host ρ ρ' m m') {kind : JobKind}
    (is : ρ'.Is j kind) (ends : m'.Ends j (.error error))
    (alive : m'.store.isAlive kind.module = true) :
    Caused (m' :: m :: trace) error kind.module := by
  rw [step.rule.isAlive] at alive
  rcases Nat.lt_or_ge j m.store.jobs.size with known | new
  · have is := step.follow.is_of_lt step.sound.store known is
    rcases step.ends_cases known ends with before | ⟨next, st, stack⟩
    · exact (accounted.ended j kind error is before alive).cons
    · obtain ⟨j', kind', awaits, is', errs⟩ := step.errs_of_ended h.staged next
      obtain ⟨st', stack', _⟩ := awaits.of_work
      cases stack.symm.trans stack'
      cases is.eq is'
      exact accounted.caused_of_errs h step alive errs
  · exact nomatch (step.ready_of_ends is new ends).1

private theorem Accounted.groups_step (accounted : m.Accounted ρ (m :: trace))
    (h : Traced host ρ (m :: trace)) (step : SoundStep host ρ ρ' m m')
    (mem : some error ∈ (m'.store.group g).errors) : Taints ρ' m' (m' :: m :: trace) g error := by
  rcases Nat.lt_or_ge g m.store.groups.size with known | new
  · exact (accounted.of_settling h (step.rule.settling known) mem).step step
  · obtain ⟨n, group⟩ := step.rule.group_new new
    rw [group] at mem
    exact nomatch List.eq_of_mem_replicate mem

/-- A step keeps all errors accounted for. -/
theorem Accounted.step (accounted : m.Accounted ρ (m :: trace))
    (h : Traced host ρ (m :: trace)) (step : SoundStep host ρ ρ' m m') :
    m'.Accounted ρ' (m' :: m :: trace) where
  failed r error alive failed := by
    rw [step.rule.isAlive] at alive
    rcases step.rule.failed_cases failed with before | ⟨known, breaks⟩
    · exact (accounted.failed r error alive before).cons
    · exact accounted.caused_of_breaks h step alive known breaks (.inl failed)
  ended _ _ _ is ends alive := accounted.ended_step h step is ends alive
  linked error seen next := by
    obtain ⟨j, path, r, awaits, errs⟩ :=
      step.errs_of_linked (fun way => (way.goodBelow h.barred.walking).2.1) next
    refine ⟨j, path, r, awaits.mono step.follow.le, fun alive => ?_⟩
    rw [step.rule.isAlive] at alive
    exact accounted.caused_of_errs h step alive errs
  visited error seen next := by
    obtain ⟨j, r, awaits, descends, errs⟩ := step.errs_of_visited h.descending next
    refine ⟨j, r, awaits.mono step.follow.le, descends.step step, fun alive => ?_⟩
    rw [step.rule.isAlive] at alive
    exact accounted.caused_of_errs h step alive errs
  groups _ _ mem := accounted.groups_step h step mem

/-- What happens outside keeps all errors accounted for. -/
theorem Accounted.pause (accounted : m.Accounted ρ (m :: trace)) (living : m.Living)
    (pause : SoundPause ρ m m') : m'.Accounted ρ (m' :: m :: trace) := by
  have kept := pause.change.kept
  have alive_of : ∀ {r}, m'.store.isAlive r = true → m.store.isAlive r = true :=
    living.alive_of_pause pause
  refine ⟨fun r error alive failed => ?_, fun j kind error is ends alive => ?_,
    fun error seen hc => ?_, fun error seen hc => ?_, fun g error mem => ?_⟩
  · rw [kept.record] at failed
    exact (accounted.failed r error (alive_of alive) failed).cons
  · exact (accounted.ended j kind error is (pause.ends.mp ends) (alive_of alive)).cons
  · rcases pause.control with ⟨_, h⟩ | ⟨_, h⟩ <;> exact nomatch h.symm.trans hc
  · rcases pause.control with ⟨_, h⟩ | ⟨_, h⟩ <;> exact nomatch h.symm.trans hc
  · rw [(kept.members g).errors] at mem
    obtain ⟨j, path, r, owner, place, cause⟩ := accounted.groups g error mem
    refine ⟨j, path, r, owner, place.pause pause, fun alive => ?_⟩
    obtain ⟨d, requires, cause⟩ := cause (alive_of alive)
    exact ⟨d, requires.cons, cause.cons⟩

/-- In every run, all errors are accounted for. -/
theorem Traced.accounted (h : Traced host ρ (m :: trace)) : m.Accounted ρ (m :: trace) := by
  generalize hl : m :: trace = states at h
  induction h generalizing m trace with
  | start base resolver memory =>
    cases hl
    refine ⟨fun r error _ failed => ?_, fun j kind error is => ?_, fun _ _ hc => ?_,
      fun _ _ hc => ?_, fun g error mem => ?_⟩
    · rw [record_start] at failed
      exact nomatch failed
    · exact nomatch is
    · exact nomatch hc
    · exact nomatch hc
    · rw [group_of_size_le (Nat.zero_le g)] at mem
      exact nomatch mem
  | step traced step ih =>
    cases hl
    exact (ih rfl).step traced step
  | outside traced pause ih =>
    cases hl
    exact (ih rfl).pause traced.living pause

/-- An error of its own stays a module's own in a run. -/
theorem Traced.isOwn (h : Traced host ρ (m :: trace)) (mem : m' ∈ m :: trace)
    (known : r < m'.store.records.size) (own : m'.store.IsOwn r error) : m.store.IsOwn r error := by
  refine (h.persists_of_mem (P := fun m => r < m.store.records.size ∧ m.store.IsOwn r error) mem
    ⟨fun _ step ⟨known, own⟩ => ?_, fun _ pause ⟨known, own⟩ => ?_⟩ ⟨known, own⟩).2
  · exact ⟨Nat.lt_of_lt_of_le known step.rule.size_records_le, step.rule.isOwn known own⟩
  · have kept := pause.change.kept
    refine ⟨kept.size_records ▸ known, ?_⟩
    cases error with
    | loaderDropped => exact own
    | _ =>
      unfold IsOwn
      rwa [kept.record]

/-- A module that has borne an error has failed with it, unless it is executed, or its turn has come
once more after that. -/
theorem Traced.of_bears (h : Traced host ρ (m :: trace)) (bears : Bears (m :: trace) error r) :
    m.store.stateOf r = .failed error ∨ m.store.stateOf r = .executed ∨ m.Repeats r := by
  obtain ⟨x, mem, bears⟩ := bears
  rcases h.leadsTo_or_repeats (r := r) mem with forward | ⟨_, repeats⟩
  · rcases bears with failed | executed
    · rw [failed] at forward
      exact .inl forward
    · rw [executed] at forward
      exact .inr (.inl forward)
  · exact .inr (.inr repeats)

theorem Caused.bears (h : Caused states error r) : Bears states error r := by
  cases h with
  | own bears _ _ _ => exact bears
  | passed bears _ _ => exact bears

/-- The modules that an error goes back to are on a path. -/
theorem Caused.exists_path (h : Caused states error r) :
    ∃ d, Relation.ReflTransGen (fun x y => Requires states x y ∧ Bears states error y) r d ∧
      ∃ m ∈ states, d < m.store.records.size ∧ m.store.IsOwn d error := by
  induction h with
  | own _ mem known own => exact ⟨_, .refl, _, mem, known, own⟩
  | passed _ edge cause ih =>
    obtain ⟨d, path, own⟩ := ih
    exact ⟨d, path.head ⟨edge, cause.bears⟩, own⟩

/-- A module has an error from one whose own it is. -/
theorem Traced.inherits (h : Traced host ρ (m :: trace)) (cause : Caused (m :: trace) error r) :
    ∃ d, Relation.ReflTransGen (m.Inherits trace error) r d ∧ m.store.IsOwn d error := by
  obtain ⟨d, path, m', mem, known, own⟩ := cause.exists_path
  refine ⟨d, Relation.ReflTransGen.mono ?_ _ _ path, h.isOwn mem known own⟩
  exact fun x y ⟨edge, bears⟩ => ⟨edge, h.of_bears bears⟩

/-- The error of a failed module is its own, or there is a path to a module whose own it is, each
step of which goes to a module that a specifier of the one before has been resolved to. The modules
on the way have failed with the same error, or are executed: these do not fail any more, but hand
the error on when the linking of their graph fails after all. -/
theorem Run.caused (h : Run host (m :: trace)) (alive : m.store.isAlive r = true)
    (failed : m.store.stateOf r = .failed error) :
    ∃ d, Relation.ReflTransGen (m.Inherits trace error) r d ∧ m.store.IsOwn d error := by
  obtain ⟨ρ, traced⟩ := h.exists_roles
  exact traced.inherits (traced.accounted.failed r error alive failed)

end Accounted

/-- Two modules that depend on each other; one of them also needs a module whose hook waits for a
gate, and the other one a module whose body fails. A fifth module imports the former. -/
def entangledModules : List (String × Script.Program) :=
  [("x:/a", { dependencies := [("x:/b", none), ("x:/f", none)], body := some (.steps []) }),
   ("x:/b", { dependencies := [("x:/a", none), ("x:/z", none)], body := some (.steps []) }),
   ("x:/z", { start := [.wait "g"] }),
   ("x:/f", { body := some (.steps [.fail { message := "boom" }]) }),
   ("x:/p", { dependencies := [("x:/b", none)] })]

/-- The imports of the first module and of the last one are polled, the gate is opened, and both are
polled again. -/
def entangledStimuli : List (Stimulus Script.Memory) :=
  [.request (.poll (.waiting 0 2)), .request (.start "x:/p" none),
   .request (.poll (.waiting 4 11)), .remember fun memory => memory.settleGate "g" (.ok ()),
   .signal "g", .request (.poll (.waiting 0 2)), .request (.poll (.waiting 4 11))]

section Entangled

/-- What both imports come to. -/
def entangledEnd : Machine Script.Code Script.Memory :=
  scriptedEnd entangledModules "x:/a" entangledStimuli 171

/-- The states before. -/
def entangledTrace : List (Machine Script.Code Script.Memory) :=
  (scripted entangledModules "x:/a" entangledStimuli 171).tail

/-- The error of the body that fails. -/
def boom : LoaderError :=
  .execution { scheme := "x", path := "/f" } (some { scheme := "x", path := "/a" })
    { message := "boom" }

/-- The last module has failed with the error of the body, although the only module that it imports
has been executed. -/
theorem Run.caused_entangled : entangledEnd.store.isAlive 4 = true ∧
    (entangledEnd.store.record 4).dependencies = [1] ∧
    entangledEnd.store.stateOf 1 = .executed ∧ entangledEnd.store.stateOf 4 = .failed boom ∧
    ∃ d, Relation.ReflTransGen (entangledEnd.Inherits entangledTrace boom) 4 d ∧
      entangledEnd.store.IsOwn d boom := by
  have run : Run Script.host (entangledEnd :: entangledTrace) :=
    .scripted entangledModules "x:/a" _ _
  have alive : entangledEnd.store.isAlive 4 = true := by decide +kernel
  have failed : entangledEnd.store.stateOf 4 = .failed boom := by decide +kernel
  exact ⟨alive, by decide +kernel, by decide +kernel, failed, Run.caused run alive failed⟩

end Entangled

end Machine

end ModuleSystem.Loader
