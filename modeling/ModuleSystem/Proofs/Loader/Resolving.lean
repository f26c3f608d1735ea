import Mathlib.Data.List.Forall2
import ModuleSystem.Proofs.Loader.Adopting
import ModuleSystem.Proofs.Loader.Index

/-!
# What specifiers are resolved to

The specifiers that the hook of a module has registered are resolved in one step. Each of them leads
to a URL, and the record that is registered under this URL then is the dependency
(`Machine.Resolves`). The setters that the hook has registered are kept under numbers, which stand
for the same host code ever after.

## Main definitions

* `Store.code?` : the host code that the number of a setter stands for.
* `Store.ResolvesTo` : a specifier leads to a module.
* `Machine.Registered` : a module has been registered and its specifiers have been resolved.

## Main results

* `Machine.Traced.code?_eq` : the number of a setter stands for the same code in the rest of a run.
* `Machine.Traced.registered` : the dependencies that a module is linked to are the ones that its hook
  has registered, with their setters.
-/

namespace ModuleSystem.Loader

variable {C M : Type}

namespace Store

/-- The host code that a setter runs. -/
def code? (s : Store C) (x : SetterId) : Option (RecordId → C) :=
  s.setters[x]?.map Setter.run

/-- A specifier in a module of some URL leads to a URL, and a module is registered there later. -/
def ResolvesTo (s s' : Store C) (base : Url) (specifier : String) (module : RecordId) : Prop :=
  ∃ url, s.resolve specifier (some base) = .ok url ∧ s'.lookup url = some module

section Resolving

variable {s s' : Store C} {base : Url} {x : SetterId}

/-- When dependencies have been resolved, each of them is what its specifier leads to. -/
theorem targets_of_resolveDependencies {specifiers : List (String × Option SetterId)}
    {dependencies : List Dependency}
    (h : Machine.resolveDependencies base s specifiers = (s', .ok dependencies)) :
    List.Forall₂ (fun specifier dependency => dependency.setter = specifier.2 ∧
      s.ResolvesTo s' base specifier.1 dependency.module) specifiers dependencies := by
  induction specifiers generalizing s s' dependencies with
  | nil =>
    rw [Machine.resolveDependencies] at h
    cases h
    exact .nil
  | cons specifier rest ih =>
    rw [Machine.resolveDependencies] at h
    split at h
    · cases h
    · rename_i target resolved
      rcases hr : Machine.resolveDependencies base (s.getOrCreate target (some base)).1 rest with
        ⟨s₂, others⟩
      simp only [hr] at h
      cases others with
      | error error => cases h
      | ok others =>
        cases h
        have others := ih hr
        simp only [ResolvesTo, resolve_getOrCreate] at others
        exact .cons ⟨rfl, target, resolved,
          (creates_resolveDependencies hr).lookup lookup_getOrCreate⟩ others

/-- A registration gets a number for each of its setters, which stands for its code. -/
theorem code?_addSetters (setters : List (Option (RecordId → C))) (s : Store C) :
    (s.addSetters setters).2.map (Option.map (s.addSetters setters).1.code?) =
      setters.map (Option.map some) := by
  induction setters generalizing s with
  | nil => rfl
  | cons setter rest ih =>
    cases setter with
    | none => exact congrArg (none :: ·) (ih s)
    | some run =>
      refine congrArg₂ List.cons ?_ (ih _)
      have kept := (addsSetters rest { s with setters := s.setters.push { run } }).old
        s.setters.size (by simp)
      simp only [addSetters, Option.map_some, code?, kept]
      simp

/-- Whether a setter runs makes no difference for its code. -/
theorem code?_markSetter (y : SetterId) (isRunning : Bool) :
    (s.markSetter y isRunning).code? x = s.code? x := by
  rw [code?, code?, markSetter, Array.getElem?_modify]
  split_ifs
  · cases s.setters[x]? <;> rfl
  · rfl

end Resolving

end Store

namespace Machine

open Store

section Code

variable {host : Host C M} {ρ : Roles} {m m' : Machine C M} {trace : List (Machine C M)}
  {x : SetterId}

theorem Rule.code?_eq (h : Rule host m m') (known : x < m.store.setters.size) :
    m'.store.code? x = m.store.code? x := by
  have listened := fun (xs : List Dependency) (s : Store C) => samePace_foldl samePace_listen xs s
  have same : m'.store.setters = m.store.setters → m'.store.code? x = m.store.code? x := fun h => by
    rw [code?, code?, h]
  cases h.notice with
  | mute store _ => exact same store.setters
  | @adopts _ _ registration _ _ store =>
    rw [store]
    exact congrArg (Option.map Setter.run) ((addsSetters registration.setters m.store).old x known)
  | publishes _ after way => exact same (by rw [way.raises.setters, after]; rfl)
  | hands hands =>
    obtain ⟨way, _, _, after⟩ := hands
    exact same (by rw [after.raises.setters, (listened _ _).setters, way.mute.1.setters])
  | attaches attaches =>
    obtain ⟨way, _, store⟩ := attaches
    refine same ?_
    rw [store, (samePace_attach ..).setters, (listened _ _).setters, way.mute.1.setters]
  | deletes store _ => exact same (by rw [store, (samePace_delete ..).setters])
  | defines store _ => exact same (by rw [store, (samePace_define ..).setters])
  | calls _ _ _ _ _ store =>
    rw [store]
    exact code?_markSetter ..
  | settles _ store =>
    rw [store]
    exact code?_markSetter ..
  | drops _ _ _ _ _ _ setters => exact same setters
  | rests _ store _ => exact same (by rw [store]; rfl)

/-- In every run, the number of a setter stands for the same code from when it has been given. -/
theorem Traced.code?_eq (h : Traced host ρ (m :: trace)) (mem : m' ∈ m :: trace)
    (known : x < m'.store.setters.size) :
    m.store.code? x = m'.store.code? x := by
  refine (h.persists_of_mem mem
    (P := fun m => x < m.store.setters.size ∧ m.store.code? x = m'.store.code? x)
    ⟨fun _ step ⟨lt, same⟩ => ?_, fun _ pause ⟨lt, same⟩ => ?_⟩ ⟨known, rfl⟩).2
  · exact ⟨Nat.lt_of_lt_of_le lt step.rule.size_setters_le, (step.rule.code?_eq lt).trans same⟩
  · obtain ⟨_, setters, _⟩ := pause.change.pace
    rw [code?, setters]
    exact ⟨lt, same⟩

/-- In every run, the numbers of some setters stand for the same code from when they are known. -/
theorem Traced.map_code?_eq (h : Traced host ρ (m :: trace)) (mem : m' ∈ m :: trace)
    (setters : List (Option SetterId))
    (known : ∀ x, some x ∈ setters → x < m'.store.setters.size) :
    setters.map (Option.map m.store.code?) = setters.map (Option.map m'.store.code?) := by
  refine List.map_congr_left fun setter own => ?_
  cases setter with
  | none => rfl
  | some x => exact congrArg some (h.code?_eq mem (known x own))

end Code

/-! ### Dependencies that are resolved -/

/-- The dependencies of a module are resolved, as its hook has registered them. -/
structure Resolves (m m' : Machine C M) (r : RecordId) (dependencies : List Dependency) :
    Prop where
  stack : m.stack = .linking r :: m'.stack
  control : m.control = .polled (some (.ok ()))
  clean : (m.store.record r).state.error? = none
  targets : List.Forall₂ (fun specifier dependency => dependency.setter = specifier.2 ∧
      m.store.ResolvesTo m'.store (m.store.record r).url specifier.1 dependency.module)
    ((m.store.record r).specifiers.zip (m.store.record r).pendingSetters) dependencies

/-- The hook of a module has ended with a registration, and later its specifiers have been resolved
to some modules. -/
structure Registered (host : Host C M) (trace : List (Machine C M)) (r : RecordId)
    (registration : Registration C) (modules : List RecordId) : Prop where
  adopted : ∃ m m' earlier, m' :: m :: earlier <:+ trace ∧ Adopts host m m' r registration
  resolved : ∃ m m' earlier, m' :: m :: earlier <:+ trace ∧ m.stack = .linking r :: m'.stack ∧
    m.control = .polled (some (.ok ())) ∧
    List.Forall₂ (m.store.ResolvesTo m'.store (m.store.record r).url) registration.dependencies
      modules

section Resolving

variable {host : Host C M} {ρ ρ' : Roles} {m m' : Machine C M} {trace : List (Machine C M)}
  {r : RecordId} {outcome : Option Outcome} {dependencies left : List Dependency}

/-- When a module that is to be linked has been looked at, its job has to wait, or has ended, or the
dependencies of the module have been resolved. -/
theorem Rule.of_linking (h : Rule host m m') (stack : m.stack = .linking r :: m'.stack)
    (control : m.control = .polled outcome) : m'.control = .paused (.link r) ∨
      (∃ outcome, m'.control = .ended outcome) ∨ ∃ dependencies,
        m'.control = .work (.awaitDependencies r dependencies m.store.groups.size) ∧
          Resolves m m' r dependencies := by
  have joins : ∀ {s st c dependencies g s₁ st' r'}, c = m.control → st = m.stack →
      ¬ Joins (C := C) s st c r' dependencies g s₁ st' := by
    rintro s st c dependencies g s₁ st' r' rfl rfl way
    rw [stack, control] at way
    cases way
  have turns : ∀ {s st c r' rest jobs seen st'}, c = m.control →
      ¬ Turn (C := C) s st c r' rest jobs seen st' := by
    rintro s st c r' rest jobs seen st' rfl way
    rw [control] at way
    cases way
  cases h
  case move h =>
    cases h
    case linkWaits =>
      cases stack
      exact .inl rfl
    case linkFails | linkOrphaned | linkFailed => exact .inr (.inl ⟨_, rfl⟩)
    case turnVisits way => exact absurd way (turns rfl)
    case imported | nodeWaits | nodeFails | nodeLeft | attempted | attemptFailed | evaluationWaits
        | evaluationEnds => exact nomatch stack
    all_goals exact nomatch control
  case unresolved => exact .inr (.inl ⟨_, rfl⟩)
  case resolves clean resolved =>
    cases stack
    have creates := creates_resolveDependencies resolved
    have targets := targets_of_resolveDependencies resolved
    refine .inr (.inr ⟨_, ?_, rfl, rfl, clean, targets⟩)
    rw [creates.same.2.1]
    rfl
  case joins way _ | joinWaits way _ _ | joinOrphaned way _ _ _ | joinFails way _ _ _ _ =>
    exact absurd way (joins rfl rfl)
  case handsOver way _ _ | handedOver way =>
    cases way with
    | resumes => exact nomatch control
    | starts way => exact absurd way (joins rfl rfl)
  case gathers way _ _ | gatherWaits way _ _ _ | gathered way _ _ | gatherOrphaned way _ _
      | gatherFails way _ _ => cases way <;> exact nomatch control
  case turnDeferred way _ | turnComes way => exact absurd way (turns rfl)
  case collects way _ _ | collectWaits way _ _ _ | collectOrphaned way _ | collectFails way _ _
      | collectTooLate way _ _ | collected way _ _ _ _ =>
    cases way with
    | starts => exact nomatch control
    | settles => exact nomatch stack
  case nodeLinked | attemptWaits => exact nomatch stack
  all_goals exact nomatch control

/-- When a module comes to be linked to some dependencies, these have been resolved. -/
theorem SoundStep.resolves (step : SoundStep host ρ ρ' m m')
    (stack : m.stack = .linking r :: m'.stack) (control : m.control = .polled outcome)
    (carries : m'.Carries r dependencies left) : Resolves m m' r dependencies := by
  have fits := step.sound.control
  rw [control, stack] at fits
  obtain ⟨_, _ | ⟨fits, below⟩, _⟩ := fits
  cases fits with
  | @linking j _ _ is _ =>
    obtain ⟨st, stack', _⟩ := below.of_work
    -- the job does something else now
    have busy : ∀ {w}, m'.Has j w → m'.control = .work w ∨ m'.control = .paused w := by
      rintro w (state | ⟨_, next⟩ | ⟨_, next⟩)
      · exact absurd state (step.sound'.not_waiting (by rw [stack']; exact List.mem_cons_self))
      · exact .inl next
      · exact .inr next
    obtain ⟨g, has⟩ : ∃ g, m'.Has j (.awaitDependencies r dependencies g) := by
      obtain ⟨j', is', way⟩ := step.sound'.of_carries carries
      obtain rfl : j = j' := (step.sound'.store.links j r (is.mono step.follow.le)).2.symm.trans
        (step.sound'.store.links j' r is').2
      rcases way with ⟨_, g, has⟩ | ⟨frame, st', above, about⟩
      · exact ⟨g, has⟩
      · rw [stack'] at above
        rcases List.suffix_cons_iff.mp above with same | above
        · rcases about with ⟨_, _, _, rfl⟩ | rfl <;> exact nomatch same
        · exact absurd (above.subset (List.mem_cons_of_mem _ List.mem_cons_self))
            (step.sound'.not_mem_below ⟨[], stack'.symm⟩)
    rcases step.rule.of_linking stack control with next | ⟨_, next⟩ | ⟨dependencies', next, resolves⟩
    · rcases busy has with next' | next' <;> exact nomatch next.symm.trans next'
    · rcases busy has with next' | next' <;> exact nomatch next.symm.trans next'
    · rcases busy has with next' | next'
      · cases next.symm.trans next'
        exact resolves
      · exact nomatch next.symm.trans next'

/-- In every run, the dependencies of a module that is being linked have been resolved. -/
theorem Traced.resolved (h : Traced host ρ (m :: trace)) (carries : m.Carries r dependencies left) :
    ∃ w w' earlier, w' :: w :: earlier <:+ m :: trace ∧ Resolves w w' r dependencies ∧
      (m.store.record r).specifiers = (w.store.record r).specifiers := by
  generalize hl : m :: trace = states at h
  induction h generalizing m trace left with
  | start base resolver memory =>
    cases hl
    exact absurd carries not_carries_start
  | @step _ _ m₀ m₁ before traced advance ih =>
    cases hl
    have goesOn : ∀ {left}, m₀.Carries r dependencies left → ∃ w w' earlier,
        w' :: w :: earlier <:+ m₁ :: m₀ :: before ∧ Resolves w w' r dependencies ∧
          (m₁.store.record r).specifiers = (w.store.record r).specifiers := by
      intro left carries
      obtain ⟨w, w', earlier, below, resolves, same⟩ := ih carries rfl
      refine ⟨w, w', earlier, below.trans (List.suffix_cons _ _), resolves, ?_⟩
      rcases advance.rule.specifiers r with kept | ⟨_, adopts⟩
      · exact kept.trans same
      · obtain ⟨_, control, _⟩ := adopts.ends
        exact absurd (traced.staged.of_carries carries)
          (advance.sound.not_instantiated_of_hook adopts.stack control)
    cases advance.carried carries with
    | same carries => exact goesOn carries
    | resolved stack control _ _ _ =>
      refine ⟨m₀, m₁, before, List.suffix_refl _, advance.resolves stack control carries, ?_⟩
      rcases advance.rule.specifiers r with kept | ⟨_, adopts⟩
      · exact kept
      · exact nomatch stack.symm.trans adopts.stack
    | hands hands => exact goesOn (hands.hands traced.sequenced advance.sound).carries
  | outside traced pause ih =>
    cases hl
    obtain ⟨w, w', earlier, below, resolves, same⟩ := ih (carries.of_pause pause) rfl
    rw [pause.change.kept.record]
    exact ⟨w, w', earlier, below.trans (List.suffix_cons _ _), resolves, same⟩

/-- A module whose dependencies are resolved has been registered by its hook. -/
private theorem Traced.adopted_of_resolves {w w' : Machine C M} {earlier : List (Machine C M)}
    (h : Traced host ρ (w :: earlier)) (resolves : Resolves w w' r dependencies) :
    ∃ registration y y' earlier', y' :: y :: earlier' <:+ w :: earlier ∧
      Adopts host y y' r registration ∧ (w.store.record r).registration =
        (registration.dependencies, (y.store.addSetters registration.setters).2) := by
  refine h.adopted (.waiting (resolves.stack ▸ List.mem_cons_self)) ?_ resolves.clean
  have fits := h.sound.control
  rw [resolves.control, resolves.stack] at fits
  obtain ⟨_, _ | ⟨fits, _⟩, finished⟩ := fits
  cases fits with
  | linking _ instantiation =>
    obtain ⟨known, same⟩ := h.sound.store.instantiation_eq instantiation
    exact ⟨known, .inl (by rw [same]; exact finished _ rfl)⟩

/-- Specifiers with setters are resolved to dependencies with the same setters. -/
private theorem Resolves.parallel (resolves : Resolves m m' r dependencies)
    (parallel : (m.store.record r).specifiers.length =
      (m.store.record r).pendingSetters.length) :
    dependencies.map Dependency.setter = (m.store.record r).pendingSetters ∧
      List.Forall₂ (m.store.ResolvesTo m'.store (m.store.record r).url)
        (m.store.record r).specifiers (dependencies.map Dependency.module) := by
  have setters : List.Forall₂ Eq (((m.store.record r).specifiers.zip
      (m.store.record r).pendingSetters).map Prod.snd) (dependencies.map Dependency.setter) :=
    List.forall₂_map_left_iff.mpr <| List.forall₂_map_right_iff.mpr <|
      resolves.targets.imp fun _ _ h => h.1.symm
  have targets : List.Forall₂ (m.store.ResolvesTo m'.store (m.store.record r).url)
      (((m.store.record r).specifiers.zip (m.store.record r).pendingSetters).map Prod.fst)
      (dependencies.map Dependency.module) :=
    List.forall₂_map_left_iff.mpr <| List.forall₂_map_right_iff.mpr <|
      resolves.targets.imp fun _ _ h => h.2
  rw [List.forall₂_eq_eq_eq, List.map_snd_zip (Nat.le_of_eq parallel.symm)] at setters
  rw [List.map_fst_zip (Nat.le_of_eq parallel)] at targets
  exact ⟨setters.symm, targets⟩

/-- In every run, the dependencies of a module that is being linked are what the specifiers are
resolved to that its hook has registered, with the setters that it has registered. -/
theorem Traced.registered (h : Traced host ρ (m :: trace))
    (carries : m.Carries r dependencies left) : ∃ registration,
      Registered host (m :: trace) r registration (dependencies.map Dependency.module) ∧
      (m.store.record r).specifiers = registration.dependencies ∧
      (dependencies.map Dependency.setter).map (Option.map m.store.code?) =
        registration.setters.map (Option.map some) := by
  obtain ⟨w, w', earlier, below, resolves, specifiers⟩ := h.resolved carries
  obtain ⟨_, traced⟩ := h.suffix ((List.suffix_cons _ _).trans below) nofun
  obtain ⟨registration, y, y', earlier', below', adopts, kept⟩ :=
    traced.adopted_of_resolves resolves
  have inner := below'.trans ((List.suffix_cons _ _).trans below)
  obtain ⟨kept, pending⟩ := Prod.mk.inj kept
  have code := code?_addSetters registration.setters y.store
  have length : (y.store.addSetters registration.setters).2.length = registration.setters.length := by
    simpa using congrArg List.length code
  obtain ⟨setters, targets⟩ := resolves.parallel (by rw [kept, pending, length, adopts.valid])
  rw [kept] at targets
  refine ⟨registration, ⟨⟨y, y', earlier', inner, adopts⟩,
    ⟨w, w', earlier, below, resolves.stack, resolves.control, targets⟩⟩, specifiers.trans kept, ?_⟩
  have later := h.map_code?_eq (inner.subset List.mem_cons_self)
    (y.store.addSetters registration.setters).2 fun x mem => by
      rw [adopts.store]
      exact ((addsSetters registration.setters y.store).new x mem).2
  rw [setters, pending, ← code, later, adopts.store]
  rfl

end Resolving

end Machine

end ModuleSystem.Loader
