import ModuleSystem.Proofs.Loader.Silencing

/-!
# What hooks register

The hook of a module registers the specifiers of its dependencies and a setter for each of them that
has one (`Machine.Adopts`). The two lists are kept as they are until the dependencies are resolved, or
the module fails (`Machine.Traced.adopted`).

## Main definitions

* `Record.registration` : the specifiers and the setters that are kept for a module.
* `Machine.Adopts` : what the hook of a module has registered is taken over.
* `Machine.Unresolved` : the dependencies of a module are still to be resolved.

## Main results

* `Machine.Rule.registration` : what a step does to the registration of a module.
-/

namespace ModuleSystem.Loader

variable {C M : Type}

/-- The specifiers and the setters that are kept for a module until it is linked. -/
def Record.registration (r : Record C) : List String × List (Option SetterId) :=
  (r.specifiers, r.pendingSetters)

/-- A registration that is valid has a place for the setter of each dependency. -/
theorem Registration.of_validate {result : Except HostError (Registration C)}
    {registration : Registration C} (h : result.bind Registration.validate = .ok registration) :
    result = .ok registration ∧
      registration.setters.length = registration.dependencies.length := by
  cases result with
  | error => exact nomatch h
  | ok other =>
    rw [Except.bind, Registration.validate] at h
    split_ifs at h with valid
    cases h
    exact ⟨rfl, valid⟩

namespace Store

section Registrations

variable {s s' : Store C} {r d : RecordId} {url : Url}

theorem registration_enter (state : ModuleState) :
    ((s.enter d state).record r).registration = (s.record r).registration := by
  rw [record_enter]
  refine record_update_keeps Record.registration fun x => ?_
  unfold Record.enter
  split <;> rfl

theorem registration_setEvaluation (job : Option JobId) :
    ((s.setEvaluation d job).record r).registration = (s.record r).registration :=
  record_update_keeps Record.registration fun _ => rfl

theorem registration_takeTurn :
    ((s.takeTurn d).record r).registration = (s.record r).registration := by
  unfold takeTurn
  refine (record_update_keeps Record.registration ?_).trans (registration_enter _)
  exact fun _ => rfl

/-- A module that fails gives up its setters. -/
theorem registration_fail (error : LoaderError) :
    ((s.fail d error).1.record r).registration = (s.record r).registration ∨
      ((s.fail d error).1.record r).specifiers = (s.record r).specifiers ∧
        ∃ error', ((s.fail d error).1.record r).state = .failed error' := by
  by_cases same : r = d
  · subst same
    rcases Nat.lt_or_ge r s.records.size with lt | ge
    · rw [record_fail_self lt]
      unfold Record.poison
      split
      · exact .inl rfl
      · exact .inl rfl
      · exact .inr ⟨rfl, error, rfl⟩
    · rw [record_of_size_le ge, record_of_size_le (by simpa using ge)]
      exact .inl rfl
  · rw [record_fail_of_ne same]
    exact .inl rfl

theorem Creates.registration (h : Creates s s') :
    (s'.record r).registration = (s.record r).registration := by
  induction h with
  | refl => rfl
  | create _ url referrer _ ih =>
    rw [← ih, record_create]
    split_ifs with new
    · rw [record_of_size_le (Nat.le_of_eq new.symm)]
      rfl
    · rfl

theorem registration_importRecord :
    ((Machine.importRecord s d).1.record r).registration = (s.record r).registration := by
  rcases importRecord_cases s d with ⟨_, _, h⟩ | ⟨_, h⟩ | ⟨_, _, h⟩ | ⟨_, _, _, h⟩ <;> rw [h]
  exact record_update_keeps Record.registration fun _ => rfl

theorem registration_delete :
    ((s.delete url).1.record r).registration = (s.record r).registration :=
  record_delete_keeps Record.registration (fun _ _ => rfl) fun _ _ => rfl

theorem registration_define {entries : List (String × Value)} :
    ((s.define url entries).1.record r).registration = (s.record r).registration := by
  by_cases new : r = s.records.size
  · subst new
    rw [record_define, record_of_size_le (Nat.le_refl _)]
    rfl
  · rw [record_define_of_ne new, registration_delete]

end Registrations

end Store

namespace Machine

open Store

/-- The hook of a module has ended well, and what it has registered is taken over. -/
structure Adopts (host : Host C M) (m m' : Machine C M) (r : RecordId)
    (registration : Registration C) : Prop where
  stack : m.stack = .hook r :: m'.stack
  ends : ∃ code, m.control = .host code ∧
    (host.step m.store m.memory code).2 = .finish (.ok registration)
  valid : registration.setters.length = registration.dependencies.length
  store : m'.store = m.store.adopt r registration

/-- How the registration of a module changes in a step. -/
inductive RegistrationChange (host : Host C M) (m m' : Machine C M) (r : RecordId) : Prop
  | same (registration : (m'.store.record r).registration = (m.store.record r).registration)
  | failed {error} (specifiers : (m'.store.record r).specifiers = (m.store.record r).specifiers)
      (state : (m'.store.record r).state = .failed error)
  | adopted {registration} (adopts : Adopts host m m' r registration)
  /-- The dependencies of the module are resolved. -/
  | resolving (stack : m.stack = .linking r :: m'.stack)
      (control : m.control = .polled (some (.ok ())))
      (specifiers : (m'.store.record r).specifiers = (m.store.record r).specifiers)

section Steps

variable {host : Host C M} {m m' : Machine C M} {r d : RecordId} {s : Store C}

private theorem RegistrationChange.of_fail {error : LoaderError}
    (same : (s.record r).registration = (m.store.record r).registration)
    (store : m'.store = (s.fail d error).1) : RegistrationChange host m m' r := by
  rcases registration_fail (s := s) (d := d) (r := r) error with kept | ⟨specifiers, error', state⟩
  · exact .same (by rw [store, kept, same])
  · have kept : (m'.store.record r).specifiers = (m.store.record r).specifiers := by
      rw [store, specifiers]
      exact congrArg Prod.fst same
    rw [← store] at state
    exact .failed kept state

/-- The registration of a module is taken over from its hook, and kept until the dependencies are
resolved or the module fails. -/
theorem Rule.registration (h : Rule host m m') (r : RecordId) : RegistrationChange host m m' r := by
  have kept : m'.store.record = m.store.record → RegistrationChange host m m' r := fun same =>
    .same (by rw [same])
  cases h
  case hookWaits | bodyWaits => exact kept (still_await ..).record
  case hookFails => exact .of_fail rfl rfl
  case hookEnds module _ _ registration ends _ valid _ =>
    by_cases own : r = module
    · subst own
      obtain ⟨rfl, parallel⟩ := Registration.of_validate valid
      exact .adopted ⟨rfl, ⟨_, rfl, by rw [ends]⟩, parallel, rfl⟩
    · exact .same (by rw [record_adopt_of_ne own])
  case bodyEnds => exact .same ((registration_enter _).trans (registration_setEvaluation _))
  case bodyFails after _ =>
    subst after
    refine .of_fail ?_ rfl
    exact registration_setEvaluation none
  case publishesSame =>
    exact .same (record_publish_keeps Record.registration fun _ _ _ => rfl)
  case publishes after way =>
    refine .same ?_
    rw [way.still.record, after]
    exact record_publish_keeps Record.registration fun _ _ _ => rfl
  case starts =>
    exact .same (registration_importRecord.trans (creates_getOrCreate ..).registration)
  case defines => exact .same registration_define
  case deletes => exact .same registration_delete
  case callsHook => exact .same (registration_enter _)
  case unresolved module _ _ _ _ resolved =>
    have creates := creates_resolveDependencies resolved
    by_cases own : r = module
    · subst own
      refine .resolving rfl rfl ?_
      have before := (congrArg Prod.fst (creates.registration (r := r))).trans
        (record_update_keeps Record.specifiers fun _ => rfl)
      rcases registration_fail (s := _) (d := r) (r := r) _ with kept | ⟨specifiers, _⟩
      · exact (congrArg Prod.fst kept).trans before
      · exact specifiers.trans before
    · refine .of_fail (creates.registration.trans ?_) rfl
      rw [record_update_of_ne own]
  case resolves module _ _ _ _ resolved =>
    have creates := creates_resolveDependencies resolved
    by_cases own : r = module
    · subst own
      refine .resolving rfl rfl ((congrArg Prod.fst (creates.registration (r := r))).trans ?_)
      exact record_update_keeps Record.specifiers fun _ => rfl
    · refine .same (creates.registration.trans ?_)
      rw [record_update_of_ne own]
  case joins way _ => exact kept way.still.record
  case joinWaits way _ _ | joinOrphaned way _ _ _ => exact kept way.still.record
  case joinFails way _ _ _ _ => exact .of_fail (by rw [way.still.record]) rfl
  case handsOver way _ after =>
    refine .same ?_
    rw [after.still.record, ← way.still.record]
    exact record_listen_keeps Record.registration fun _ _ => rfl
  case handedOver way =>
    refine .same ?_
    rw [record_attach_keeps Record.registration fun _ _ _ _ => rfl, ← way.still.record]
    exact record_listen_keeps Record.registration fun _ _ => rfl
  case gathers way _ _ => exact kept way.still.record
  case gatherWaits way _ _ _ | gathered way _ _ | gatherOrphaned way _ _ =>
    exact kept way.still.record
  case gatherFails way _ _ => exact .of_fail (by rw [way.still.record]) rfl
  case turnDeferred | attemptWaits => exact .same (registration_setEvaluation _)
  case turnComes => exact .same registration_takeTurn
  case visitFails => exact .of_fail rfl rfl
  case collects way _ _ => exact kept way.still.record
  case collectWaits way _ _ _ | collectOrphaned way _ | collectTooLate way _ _ =>
    exact kept way.still.record
  case collectFails way _ _ => exact .of_fail (by rw [way.still.record]) rfl
  case collected way _ _ _ _ =>
    exact .same (by rw [registration_takeTurn, way.still.record])
  case bodyless => exact .same ((registration_enter _).trans (registration_setEvaluation _))
  all_goals exact kept (by simp)

/-- The specifiers of a module stay as they are from when its hook has ended. -/
theorem Rule.specifiers (h : Rule host m m') (r : RecordId) :
    (m'.store.record r).specifiers = (m.store.record r).specifiers ∨
      ∃ registration, Adopts host m m' r registration := by
  cases h.registration r with
  | same registration => exact .inl (congrArg Prod.fst registration)
  | failed specifiers _ | resolving _ _ specifiers => exact .inl specifiers
  | adopted adopts => exact .inr ⟨_, adopts⟩

theorem Rule.adopts (h : Rule host m m') {code : C} (stack : m.stack = .hook r :: m'.stack)
    (control : m.control = .host code) (next : m'.control = .ended (.ok ())) :
    ∃ registration, Adopts host m m' r registration := by
  cases h
  case move h =>
    cases h
    case evaluationEnds | graphExecuted => cases stack
    all_goals cases next
  case hookEnds registration ends _ valid _ =>
    cases stack
    obtain ⟨rfl, parallel⟩ := Registration.of_validate valid
    exact ⟨registration, rfl, ⟨_, rfl, by rw [ends]⟩, parallel, rfl⟩
  case bodyEnds | bodyless => cases stack
  case publishes way => rcases way.control with h | h <;> cases h.symm.trans next
  case handsOver after => rcases after.control with h | h <;> cases h.symm.trans next
  case handedOver way =>
    cases way with
    | resumes => cases control
    | starts way => cases way <;> cases control
  all_goals cases next

end Steps

/-! ### Modules that are to be linked -/

/-- The dependencies of a module are still to be resolved: its job has just that left, or waits until
the module has been instantiated. -/
inductive Unresolved (m : Machine C M) (r : RecordId) : Prop
  | left {j} (has : m.Has j (.link r))
  | waiting (mem : .linking r ∈ m.stack)

section Unresolved

variable {host : Host C M} {ρ ρ' : Roles} {m m' : Machine C M} {trace : List (Machine C M)}
  {r : RecordId} {outcome : Outcome}

/-- A module that is to be linked is so by its job, which has that left, or waits. -/
theorem Sound.of_unresolved (sound : m.Sound ρ) (h : m.Unresolved r) : ∃ j, ρ.Is j (.link r) ∧
    (m.Has j (.link r) ∨ ∃ st, .linking r :: .advancing j :: st <:+ m.stack) := by
  cases h with
  | @left j has =>
    cases sound.fits_of_has has with
    | link is => exact ⟨j, is, .inl has⟩
  | waiting mem =>
    obtain ⟨slot, awaits⟩ := sound.control.awaits
    obtain ⟨above, st, stack⟩ := List.append_of_mem mem
    obtain ⟨_, _, fits, awaits⟩ := awaits.of_suffix ⟨above, stack.symm⟩
    cases fits with
    | linking is _ =>
      obtain ⟨st, rfl, _⟩ := awaits.of_work
      exact ⟨_, is, .inr ⟨st, above, stack.symm⟩⟩

theorem Sound.not_finished_of_unresolved (sound : m.Sound ρ) (h : m.Unresolved r) :
    (m.store.job (m.store.record r).linking).state ≠ .finished outcome := by
  intro finished
  obtain ⟨j, is, h⟩ := sound.of_unresolved h
  rw [(sound.store.links j r is).2] at finished
  rcases h with has | ⟨st, below⟩
  · rcases sound.state_of_has has with waits | running
    · cases waits.symm.trans finished
    · cases running.symm.trans finished
  · have running :=
      sound.running_of_mem (below.subset (List.mem_cons_of_mem _ List.mem_cons_self))
    cases running.symm.trans finished

/-- A module that is to be linked was so before a step, or is new. -/
theorem SoundStep.unresolved (step : SoundStep host ρ ρ' m m') (h : m'.Unresolved r) :
    m.Unresolved r ∨ m.store.records.size ≤ r := by
  cases h with
  | @left j has =>
    rcases step.rule.comes has with has | ⟨new, state⟩ | ⟨_, continues⟩
    · exact .inl (.left has)
    · refine .inr (Nat.le_of_not_lt fun known => ?_)
      cases step.sound'.store.work j _ state with
      | link is =>
        have linking := (step.sound'.store.links j r is).2
        rw [(step.rule.recordChange known).linking_eq] at linking
        exact absurd (step.sound.lt_of_links (step.sound.store.linking r known))
          (Nat.not_lt_of_le (linking ▸ new))
    · cases continues with
      | linkWaits stack _ => exact .inl (.waiting (stack ▸ List.mem_cons_self))
  | waiting mem =>
    rcases step.rule.pushed mem with mem | pushed
    · exact .inl (.waiting mem)
    · cases pushed with
      | plain h => exact h.elim
      | linking control _ =>
        obtain ⟨_, _, _, has⟩ := step.sound.has_of_work control
        exact .inl (.left has)

/-- A module is not to be linked any more when its dependencies have been resolved. -/
theorem SoundStep.not_unresolved (step : SoundStep host ρ ρ' m m')
    (stack : m.stack = .linking r :: m'.stack) (control : m.control = .polled (some (.ok ()))) :
    ¬ m'.Unresolved r := by
  intro h
  have fits := step.sound.control
  rw [control, stack] at fits
  obtain ⟨_, _ | ⟨fits, below⟩, _⟩ := fits
  cases fits with
  | @linking j _ _ is _ =>
    obtain ⟨st, stack', _⟩ := below.of_work
    obtain ⟨j', is', h⟩ := step.sound'.of_unresolved h
    obtain rfl : j = j' := (step.sound'.store.links j r (is.mono step.follow.le)).2.symm.trans
      (step.sound'.store.links j' r is').2
    have other : ¬ Continues m m' (.link r) := by
      rintro (_ | _ | ⟨_, hc⟩)
      exact nomatch control.symm.trans hc
    rcases h with (state | ⟨_, next⟩ | ⟨_, next⟩) | ⟨st', above⟩
    · exact step.sound'.not_waiting (mem_advanced.mpr (stack' ▸ List.mem_cons_self)) state
    · rcases step.rule.next_work next with ⟨_, hc, _⟩ | continues
      · exact nomatch control.symm.trans hc
      · exact other continues
    · exact other (step.rule.paused_work next)
    · rw [stack'] at above
      rcases List.suffix_cons_iff.mp above with same | above
      · exact nomatch same
      · exact step.sound'.not_mem_below ⟨[], stack'.symm⟩
          (above.subset (List.mem_cons_of_mem _ List.mem_cons_self))

theorem Unresolved.of_pause (h : m'.Unresolved r) (pause : SoundPause ρ m m') : m.Unresolved r := by
  cases h with
  | left has => exact .left (pause.has has)
  | waiting mem =>
    rw [pause.stack] at mem
    exact nomatch mem

/-- A module that is instantiated after a step was so before it, or its hook has ended. -/
theorem SoundStep.instantiated_cases (step : SoundStep host ρ ρ' m m')
    (known : r < m.store.records.size) (h : m'.Instantiated r) :
    m.Instantiated r ∨ ∃ registration, Adopts host m m' r registration := by
  obtain ⟨_, ends⟩ := h
  rw [(step.rule.recordChange known).instantiation_eq] at ends
  have instantiates := step.sound.store.instantiation r known
  rcases step.ends_cases (step.sound.lt_of_instantiates instantiates) ends with
    ends | ⟨next, st, stack⟩
  · exact .inl ⟨known, ends⟩
  · obtain ⟨kind, is, succeeds⟩ := step.succeedsAs next stack
    rcases instantiates.imp is.eq is.eq with rfl | rfl
    · cases succeeds with
      | instantiate stack control => exact .inr (step.rule.adopts stack control next)
    · cases succeeds

/-- A module that is to be linked is not instantiated when it is new. -/
private theorem SoundStep.not_instantiated_of_new (step : SoundStep host ρ ρ' m m')
    (new : m.store.records.size ≤ r) (unresolved : m'.Unresolved r) : ¬ m'.Instantiated r := by
  rintro ⟨known, ends⟩
  cases step.rule.makes.newRecord new known with
  | made record instantiates _ _ =>
    rw [record] at ends
    rcases ends with finished | ⟨_, st, stack⟩
    · exact nomatch instantiates.waits.symm.trans finished
    · have running := step.sound'.running_of_mem (stack ▸ List.mem_cons_self)
      exact nomatch instantiates.waits.symm.trans running
  | defined _ record _ state =>
    exact step.sound'.not_finished_of_unresolved unresolved (by rw [record]; exact state)

/-- In every run, what the hook of a module has registered is kept as it is until the dependencies of
the module are resolved, or it fails. -/
theorem Traced.adopted (h : Traced host ρ (m :: trace)) (unresolved : m.Unresolved r)
    (instantiated : m.Instantiated r) (clean : (m.store.record r).state.error? = none) :
    ∃ registration y y' earlier, y' :: y :: earlier <:+ m :: trace ∧
      Adopts host y y' r registration ∧ (m.store.record r).registration =
        (registration.dependencies, (y.store.addSetters registration.setters).2) := by
  generalize hl : m :: trace = states at h
  induction h generalizing m trace with
  | start base resolver memory =>
    cases hl
    exact absurd instantiated.1 (Nat.not_lt_zero r)
  | @step _ _ m₀ _ before traced advance ih =>
    cases hl
    rcases Nat.lt_or_ge r m₀.store.records.size with known | new
    · have unresolved₀ := (advance.unresolved unresolved).resolve_right (Nat.not_le_of_lt known)
      rcases advance.instantiated_cases known instantiated with done | ⟨registration, adopts⟩
      · have clean₀ : (m₀.store.record r).state.error? = none := by
          refine Option.eq_none_iff_forall_not_mem.mpr fun error failed => ?_
          have stays := (advance.rule.recordChange known).transition.failed
            (ModuleState.error?_eq_some.mp failed)
          rw [stays] at clean
          exact nomatch clean
        cases advance.rule.registration r with
        | same registration =>
          obtain ⟨adopted, y, y', earlier, below, adopts, kept⟩ := ih unresolved₀ done clean₀ rfl
          exact ⟨adopted, y, y', earlier, below.trans (List.suffix_cons _ _), adopts,
            registration.trans kept⟩
        | failed _ state =>
          rw [state] at clean
          exact nomatch clean
        | adopted adopts =>
          obtain ⟨_, control, _⟩ := adopts.ends
          exact absurd done (advance.sound.not_instantiated_of_hook adopts.stack control)
        | resolving stack control _ =>
          exact absurd unresolved (advance.not_unresolved stack control)
      · refine ⟨registration, m₀, _, before, List.suffix_refl _, adopts, ?_⟩
        rw [adopts.store, Store.adopt, record_update_self (by simpa using known)]
        rfl
    · exact absurd instantiated (advance.not_instantiated_of_new new unresolved)
  | outside traced pause ih =>
    cases hl
    rw [pause.change.kept.record] at clean ⊢
    obtain ⟨adopted, y, y', earlier, below, rest⟩ :=
      ih (unresolved.of_pause pause) (pause.instantiated.mp instantiated) clean rfl
    exact ⟨adopted, y, y', earlier, below.trans (List.suffix_cons _ _), rest⟩

end Unresolved

end Machine

end ModuleSystem.Loader
