import ModuleSystem.Proofs.Loader.Descent
import ModuleSystem.Proofs.Loader.Resolving

/-!
# Faults

A module comes to fail when its hook, its body or one of its specifiers is at fault, or when a
dependency is. Whoever finds this out hands an error on: the job that is being advanced ends with it,
or the walk that is under way goes back with it (`Machine.Errs`). What is handed on is the error that
the module has failed with, now or before. An executed module is the exception: it does not fail any
more, but the error is handed on for it too.

## Main definitions

* `Store.IsOwn` : an error is one of a module's own.
* `Machine.Breaks` : a module comes to fail with an error.
* `Machine.Errs` : an error is handed on for a module.

## Main results

* `Machine.Rule.failed_cases` : how a module comes to be failed.
* `Machine.SoundStep.errs_of_ended`, `Machine.SoundStep.errs_of_linked`,
  `Machine.SoundStep.errs_of_visited` : how jobs and walks come to fail.
-/

namespace ModuleSystem.Loader

variable {C M : Type}

/-- The module that a job is for. -/
@[simp] def JobKind.module : JobKind → RecordId
  | ready r | instantiate r | link r | execute r | evaluate r => r

/-- An error is one of a module's own: it names the module as the one that could not be instantiated
or executed, with its first referrer, or as the one that a specifier could not be resolved for. -/
def Store.IsOwn (s : Store C) (r : RecordId) : LoaderError → Prop
  | .resolution _ referrer _ => referrer = some (s.record r).url
  | .instantiation module referrer _ | .execution module referrer _ =>
    module = (s.record r).url ∧ referrer = (s.record r).firstReferrer
  | .loaderDropped => False

namespace Roles

variable {ρ : Roles} {j : JobId} {r : RecordId}

theorem Instantiates.is (h : ρ.Instantiates j r) : ∃ kind, ρ.Is j kind ∧ kind.module = r :=
  h.elim (fun is => ⟨_, is, rfl⟩) fun is => ⟨_, is, rfl⟩

theorem Links.is (h : ρ.Links j r) : ∃ kind, ρ.Is j kind ∧ kind.module = r :=
  h.elim (fun is => ⟨_, is, rfl⟩) fun is => ⟨_, is, rfl⟩

end Roles

/-- A walk that executes a graph starts at the module that its job is for. -/
theorem Awaits.eq_of_visited {ρ : Roles} {i j : JobId} {x y : RecordId} {st : List (Frame C)}
    (h : Awaits ρ (.visited i x) (.executingGraph :: st))
    (h' : Awaits ρ (.visited j y) (.executingGraph :: st)) : x = y := by
  rcases h with _ | ⟨fits, below⟩
  rcases h' with _ | ⟨fits', below'⟩
  cases fits with
  | executingGraph is =>
    cases fits' with
    | executingGraph is' =>
      obtain ⟨_, rfl, _⟩ := below.of_work
      obtain ⟨_, same, _⟩ := below'.of_work
      cases same
      cases is.eq is'
      rfl

namespace Machine

open Store

section Identity

variable {host : Host C M} {m m' : Machine C M} {s : Store C} {r module : RecordId} {url : Url}
  {job : Option JobId} {registration : Registration C} {dependencies : List Dependency}
  {entries : List (String × Value)}

@[simp] theorem firstReferrer_setEvaluation :
    ((s.setEvaluation module job).record r).firstReferrer = (s.record r).firstReferrer := by
  simp [setEvaluation]

@[simp] theorem firstReferrer_takeTurn :
    ((s.takeTurn module).record r).firstReferrer = (s.record r).firstReferrer := by
  simp [takeTurn]

@[simp] theorem firstReferrer_adopt :
    ((s.adopt module registration).record r).firstReferrer = (s.record r).firstReferrer := by
  simp [adopt]

@[simp] theorem firstReferrer_attach :
    ((s.attach module dependencies).record r).firstReferrer = (s.record r).firstReferrer := by
  simp [attach]

@[simp] theorem firstReferrer_exportAll :
    ((s.update module fun _ => ((s.record module).exportAll entries).1).record r).firstReferrer =
      (s.record r).firstReferrer := by
  by_cases same : r = module
  · subst same
    rcases Nat.lt_or_ge r s.records.size with known | unknown
    · rw [record_update_self known]
      rfl
    · rw [record_of_size_le unknown, record_of_size_le (by simpa using unknown)]
  · rw [record_update_of_ne same]

private theorem firstReferrer_foldl {α : Type} {f : Store C → α → Store C}
    (h : ∀ s x, ((f s x).record r).firstReferrer = (s.record r).firstReferrer) (xs : List α)
    (s : Store C) : ((xs.foldl f s).record r).firstReferrer = (s.record r).firstReferrer := by
  induction xs generalizing s with
  | nil => rfl
  | cons x xs ih => exact (ih (f s x)).trans (h s x)

private theorem firstReferrer_listen (s : Store C) (dependency : Dependency) :
    ((s.listen dependency).record r).firstReferrer = (s.record r).firstReferrer := by
  unfold Store.listen
  split <;> simp

@[simp] theorem firstReferrer_delete :
    ((s.delete url).1.record r).firstReferrer = (s.record r).firstReferrer := by
  cases h : s.lookup url with
  | none => rw [delete_of_lookup_none h]
  | some module =>
    rw [delete_of_lookup h, note_same.1, silence, firstReferrer_foldl]
    · simp
    · intro s dependency
      unfold unlisten
      split <;> simp

theorem Rule.firstReferrer_eq (h : Rule host m m') (hr : r < m.store.records.size) :
    (m'.store.record r).firstReferrer = (m.store.record r).firstReferrer := by
  cases h
  case move => rfl
  case hookWaits | bodyWaits => rw [(still_await ..).record]
  case bodyFails after _ => simp [after]
  case publishes after way => simp [way.still.record, after]
  case starts s _ _ _ url referrer _ =>
    have same := (creates_getOrCreate s url referrer).record_eq hr
    rcases importRecord_cases (s.getOrCreate url referrer).1 (s.getOrCreate url referrer).2 with
      ⟨_, _, h⟩ | ⟨_, h⟩ | ⟨_, _, h⟩ | ⟨_, _, _, h⟩ <;> simp [h, same, Store.startImport]
  case defines s _ _ url entries =>
    obtain ⟨bindings, defined⟩ := define_eq s url entries
    dsimp only
    rw [defined, record_register, if_neg (Nat.ne_of_lt (by simpa using hr)), newJob_same.1,
      firstReferrer_delete]
  case unresolved resolved | resolves resolved =>
    simp [(creates_resolveDependencies resolved).record_eq (by simpa using hr)]
  case handsOver way _ after =>
    dsimp only
    rw [after.still.record, firstReferrer_foldl firstReferrer_listen, way.still.record]
  case handedOver way =>
    dsimp only
    rw [firstReferrer_attach, firstReferrer_foldl firstReferrer_listen, way.still.record]
  case joins way _ | joinWaits way _ _ | joinOrphaned way _ _ _ | joinFails way _ _ _ _
      | gathers way _ _ | gatherWaits way _ _ _ | gathered way _ _ | gatherOrphaned way _ _
      | gatherFails way _ _ | collects way _ _ | collectWaits way _ _ _ | collectOrphaned way _
      | collectFails way _ _ | collectTooLate way _ _ | collected way _ _ _ _ =>
    simp [way.still.record]
  all_goals simp

/-- An error of its own stays a module's own. -/
theorem Rule.isOwn (h : Rule host m m') {error : LoaderError} (known : r < m.store.records.size)
    (own : m.store.IsOwn r error) : m'.store.IsOwn r error := by
  cases error with
  | resolution =>
    change _ = _
    rw [(h.recordChange known).url_eq]
    exact own
  | instantiation | execution =>
    change _ ∧ _
    rw [(h.recordChange known).url_eq, h.firstReferrer_eq known]
    exact own
  | loaderDropped => exact own

end Identity

/-! ### Modules that come to fail -/

/-- A module comes to fail with an error in a step, by its body or otherwise. -/
inductive Breaks (m m' : Machine C M) (r : RecordId) (error : LoaderError) : Prop
  | body {code reason} (stack : m.stack = .body r :: m'.stack) (control : m.control = .host code)
      (own : error = .execution (m.store.record r).url (m.store.record r).firstReferrer reason)
  | fault (h : Faults m m' r error)

/-- Why an error is handed on for a module: its loader has been dropped, or it has failed with the
error before, or a job that is for it has ended so, or the walk that links its graph, or the one
that executes it, or it fails now. An executed module does not fail any more, and the error is
handed on all the same. -/
inductive Errs (ρ : Roles) (m m' : Machine C M) (r : RecordId) (error : LoaderError) : Prop
  | orphaned (dead : m.store.isAlive r = false)
  | stored (failed : (m.store.record r).state = .failed error)
  | handed {j kind} (is : ρ.Is j kind) (module : kind.module = r)
      (ended : (m.store.job j).state = .finished (.error error))
  | linked {seen st} (stack : m.stack = .linkingGraph r :: st)
      (control : m.control = .linked (.error error) seen)
  | visited {j seen st} (awaits : Awaits ρ (.visited j r) m.stack)
      (stack : m.stack = .executingGraph :: st) (control : m.control = .visited (.error error) seen)
  | breaks (known : r < m.store.records.size) (cause : Breaks m m' r error)
      (bears : (m'.store.record r).state = .failed error ∨ (m'.store.record r).state = .executed)

section Errors

variable {host : Host C M} {ρ ρ' : Roles} {m m' : Machine C M} {r : RecordId} {error : LoaderError}
  {seen : List RecordId}

/-- A module that has failed after a step had failed before it, or comes to fail in it. -/
theorem Rule.failed_cases (h : Rule host m m')
    (failed : (m'.store.record r).state = .failed error) :
    (m.store.record r).state = .failed error ∨ r < m.store.records.size ∧ Breaks m m' r error := by
  rcases Nat.lt_or_ge r m.store.records.size with known | new
  · cases h.recordChange known with
    | same record => exact .inl (record.state.symm.trans failed)
    | failed cause same record =>
      rw [record, Record.state_poison, same.state] at failed
      split_ifs at failed with before
      · exact .inl failed
      · cases failed
        exact .inr ⟨known, .fault cause⟩
    | bodyFailed stack control _ record =>
      rw [record, Record.state_poison] at failed
      split_ifs at failed with before
      · exact .inl failed
      · cases failed
        exact .inr ⟨known, .body stack control rfl⟩
    | hooked _ _ sound _ record =>
      rw [record, Record.state_enter, if_pos sound] at failed
      exact nomatch failed
    | attached _ _ listened record =>
      rw [record, Record.state_enter] at failed
      split_ifs at failed
      exact .inl (listened.state.symm.trans failed)
    | collected _ _ _ _ _ sound record =>
      rw [record] at failed
      dsimp only at failed
      rw [Record.state_enter, if_pos sound] at failed
      exact nomatch failed
    | comes _ _ _ _ record | ended _ _ _ _ _ record | bodyless _ _ _ _ record =>
      rw [record] at failed
      dsimp only at failed
      rw [Record.state_enter] at failed
      split_ifs at failed
      exact .inl failed
    | imported _ _ _ _ _ record | adopted _ _ _ _ _ record | deferred _ _ _ record
        | suspended _ _ _ record =>
      rw [record] at failed
      exact .inl failed
  · rcases Nat.lt_or_ge r m'.store.records.size with known | unknown
    · cases h.makes.newRecord new known with
      | made record _ _ _ | defined _ record _ _ =>
        rw [record] at failed
        exact nomatch failed
    · rw [record_of_size_le unknown] at failed
      exact nomatch failed

/-- What is handed on when a module is to fail. -/
theorem Errs.of_fail {s : Store C} (known : r < m.store.records.size)
    (grows : m.store.records.size ≤ s.records.size)
    (same : (s.record r).state = (m.store.record r).state) (after : m'.store = (s.fail r error).1)
    (cause : Breaks m m' r error) : Errs ρ m m' r (s.fail r error).2 := by
  have answer : (s.fail r error).2 = (m'.store.record r).state.error?.getD error := by
    rw [after]
    rfl
  have state : (m'.store.record r).state = ((s.record r).poison error).state := by
    rw [after, record_fail_self (Nat.lt_of_lt_of_le known grows)]
  rw [Record.state_poison, same] at state
  rw [answer]
  split_ifs at state with kept
  · rcases kept with executed | failed
    · rw [state, executed]
      exact .breaks known cause (.inr (state.trans executed))
    · obtain ⟨stored, failed⟩ := Option.ne_none_iff_exists'.mp failed
      rw [state, failed]
      exact .stored (ModuleState.error?_eq_some.mp failed)
  · rw [state]
    exact .breaks known cause (.inl state)

private theorem Errs.of_body {s : Store C} {e : Event} (known : r < m.store.records.size)
    (after : s = (m.store.note e).setEvaluation r none) (same : m'.store = (s.fail r error).1)
    (cause : Breaks m m' r error) : Errs ρ m m' r (s.fail r error).2 := by
  refine .of_fail known ?_ ?_ same cause
  · simp [after]
  · simp [after, setEvaluation]

private theorem Errs.of_unresolved {s : Store C} {specifiers : List (String × Option SetterId)}
    {url : Url} (known : r < m.store.records.size)
    (resolved : resolveDependencies url (m.store.update r fun x => { x with pendingSetters := [] })
      specifiers = (s, .error error))
    (same : m'.store = (s.fail r error).1) (cause : Breaks m m' r error) :
    Errs ρ m m' r (s.fail r error).2 := by
  have creates := creates_resolveDependencies resolved
  refine .of_fail known ?_ ?_ same cause
  · simpa using creates.size_records_le
  · rw [creates.record_eq (by simpa using known)]
    simp

/-- How a job comes to end with an error. -/
theorem SoundStep.errs_of_ended (step : SoundStep host ρ ρ' m m') (staged : m.Staged ρ)
    (next : m'.control = .ended (.error error)) :
    ∃ j kind, Awaits ρ (.work j) m'.stack ∧ ρ.Is j kind ∧ Errs ρ m m' kind.module error := by
  have control := step.sound.control
  have store := step.sound.store
  have rule := step.rule
  cases rule
  case move move =>
    cases move
    case hookOrphaned dead =>
      cases next
      obtain ⟨j, awaits, fits⟩ := control
      cases fits with
      | instantiate is => exact ⟨j, _, awaits, is, .orphaned dead⟩
    case hookFailed failed =>
      cases next
      obtain ⟨j, awaits, fits⟩ := control
      cases fits with
      | instantiate is => exact ⟨j, _, awaits, is, .stored failed⟩
    case linkFails =>
      cases next
      obtain ⟨i, _ | ⟨fits, below⟩, ended⟩ := control
      cases fits with
      | linking is instantiation =>
        obtain ⟨kind, is', module⟩ := instantiation.is
        exact ⟨_, _, below, is, .handed is' module (ended _ rfl)⟩
    case linkOrphaned dead =>
      cases next
      obtain ⟨i, _ | ⟨fits, below⟩, _⟩ := control
      cases fits with
      | linking is _ => exact ⟨_, _, below, is, .orphaned dead⟩
    case linkFailed failed =>
      cases next
      obtain ⟨i, _ | ⟨fits, below⟩, _⟩ := control
      cases fits with
      | linking is _ => exact ⟨_, _, below, is, .stored failed⟩
    case graphFails =>
      cases next
      obtain ⟨j, path, x, awaits, _⟩ := control
      rcases awaits with _ | ⟨fits, below⟩
      cases fits with
      | linkingGraph is => exact ⟨_, _, below, is, .linked rfl rfl⟩
    case graphOrphaned dead =>
      cases next
      obtain ⟨j, path, x, awaits, _⟩ := control
      rcases awaits with _ | ⟨fits, below⟩
      cases fits with
      | linkingGraph is => exact ⟨_, _, below, is, .orphaned dead⟩
    case graphAborted =>
      cases next
      obtain ⟨j, x, awaits, _⟩ := control
      have here := awaits
      rcases awaits with _ | ⟨fits, below⟩
      cases fits with
      | executingGraph is => exact ⟨_, _, below, is, .visited here rfl rfl⟩
    case evaluationEnds =>
      cases next
      obtain ⟨i, _ | ⟨fits, below⟩, ended⟩ := control
      cases fits with
      | evaluating is evaluation => exact ⟨_, _, below, is, .handed evaluation rfl (ended _ rfl)⟩
    case bodyOrphaned dead =>
      cases next
      obtain ⟨j, awaits, fits⟩ := control
      cases fits with
      | runBody is => exact ⟨j, _, awaits, is, .orphaned dead⟩
    all_goals exact nomatch next
  case hookOrphaned dead =>
    cases next
    rcases control with _ | ⟨fits, below⟩
    cases fits with
    | hook is => exact ⟨_, _, below, is, .orphaned dead⟩
  case hookFails own =>
    cases next
    rcases control with _ | ⟨fits, below⟩
    cases fits with
    | hook is => exact ⟨_, _, below, is,
        .of_fail (store.instantiates _ _ is).1 (Nat.le_refl _) rfl rfl (.fault (.hook rfl rfl own))⟩
  case hookTooLate failed =>
    cases next
    rcases control with _ | ⟨fits, below⟩
    cases fits with
    | hook is => exact ⟨_, _, below, is, .stored failed⟩
  case bodyOrphaned dead =>
    cases next
    rcases control with _ | ⟨fits, below⟩
    cases fits with
    | body is => exact ⟨_, _, below, is, .orphaned dead⟩
  case bodyFails after own =>
    cases next
    rcases control with _ | ⟨fits, below⟩
    cases fits with
    | body is =>
      exact ⟨_, _, below, is, .of_body (staged.executes _ _ is).1 after rfl (.body rfl rfl own)⟩
  case unresolved resolved =>
    cases next
    obtain ⟨i, _ | ⟨fits, below⟩, _⟩ := control
    obtain ⟨_, _, own⟩ := error_of_resolveDependencies resolved
    cases fits with
    | linking is _ =>
      exact ⟨_, _, below, is,
        .of_unresolved (store.links _ _ is).1 resolved rfl (.fault (.unresolved rfl rfl own))⟩
  case joinOrphaned way _ _ dead =>
    cases next
    obtain ⟨j, awaits, is, _⟩ := way.awaits control
    exact ⟨j, _, awaits, is, .orphaned (way.still.isAlive ▸ dead)⟩
  case joinFails way _ done _ failure =>
    cases next
    obtain ⟨j, awaits, is, _⟩ := way.awaits control
    exact ⟨j, _, awaits, is, .of_fail (store.links _ _ is).1
      (Nat.le_of_eq way.still.size_records.symm) (by rw [way.still.record]) rfl
      (.fault (.joined way done failure))⟩
  case collectOrphaned way dead =>
    cases next
    obtain ⟨j, awaits, is, _⟩ := way.awaits control
    exact ⟨j, _, awaits, is, .orphaned (way.still.isAlive ▸ dead)⟩
  case collectFails way _ failure =>
    cases next
    obtain ⟨j, awaits, is, _⟩ := way.awaits control
    exact ⟨j, _, awaits, is, .of_fail (staged.executes _ _ is).1
      (Nat.le_of_eq way.still.size_records.symm) (by rw [way.still.record]) rfl
      (.fault (.collected way rfl failure))⟩
  case collectTooLate way _ failed =>
    cases next
    obtain ⟨j, awaits, is, _⟩ := way.awaits control
    exact ⟨j, _, awaits, is, .stored (way.still.record ▸ failed)⟩
  case publishes way => rcases way.control with h | h <;> exact nomatch h.symm.trans next
  case handsOver after => rcases after.control with h | h <;> exact nomatch h.symm.trans next
  all_goals exact nomatch next

/-- How a walk that links a graph comes to fail at a place. -/
theorem SoundStep.errs_of_linked (step : SoundStep host ρ ρ' m m')
    (linking : ∀ {r children group seen s st},
      Gathers m.store m.stack m.control r children group seen s st → r < m.store.records.size)
    (next : m'.control = .linked (.error error) seen) :
    ∃ j path r, Awaits ρ (.linked j path r) m'.stack ∧ Errs ρ m m' r error := by
  have control := step.sound.control
  have rule := step.rule
  cases rule
  case move move =>
    cases move
    case nodeOrphaned dead =>
      cases next
      obtain ⟨j, path, awaits, _⟩ := control
      exact ⟨j, path, _, awaits, .orphaned dead⟩
    case nodeFailed failed =>
      cases next
      obtain ⟨j, path, awaits, _⟩ := control
      exact ⟨j, path, _, awaits, .stored failed⟩
    case nodeFails =>
      cases next
      obtain ⟨i, _ | ⟨fits, below⟩, ended⟩ := control
      cases fits with
      | linkingNode links =>
        obtain ⟨kind, is, module⟩ := links.is
        exact ⟨_, _, _, below, .handed is module (ended _ rfl)⟩
    case nodeLeft dead =>
      cases next
      obtain ⟨i, _ | ⟨fits, below⟩, _⟩ := control
      cases fits with
      | linkingNode _ => exact ⟨_, _, _, below, .orphaned dead⟩
    all_goals exact nomatch next
  case gatherOrphaned way dead _ =>
    cases next
    obtain ⟨j, path, awaits, _⟩ := way.awaits control
    exact ⟨j, path, _, awaits, .orphaned (way.still.isAlive ▸ dead)⟩
  case gatherFails way _ failure =>
    cases next
    obtain ⟨j, path, awaits, _⟩ := way.awaits control
    exact ⟨j, path, _, awaits, .of_fail (linking way)
      (Nat.le_of_eq way.still.size_records.symm) (by rw [way.still.record]) rfl
      (.fault (.gathered way failure))⟩
  case publishes way => rcases way.control with h | h <;> exact nomatch h.symm.trans next
  case handsOver after => rcases after.control with h | h <;> exact nomatch h.symm.trans next
  all_goals exact nomatch next

/-- How a walk that executes a graph comes to fail at a module. -/
theorem SoundStep.errs_of_visited (step : SoundStep host ρ ρ' m m') (descending : m.Descending ρ)
    (next : m'.control = .visited (.error error) seen) :
    ∃ j r, Awaits ρ (.visited j r) m'.stack ∧ Descends ρ m r m'.stack ∧ Errs ρ m m' r error := by
  have control := step.sound.control
  have rule := step.rule
  cases rule
  case move move =>
    cases move
    case visitFailed r _ _ _ failed =>
      cases next
      obtain ⟨j, awaits, _⟩ := control
      exact ⟨j, r, awaits, descending.visit r _ rfl, .stored failed⟩
    case attemptFailed r i _ _ =>
      cases next
      have below' := descending.executing r i _ _ (List.suffix_refl _)
      obtain ⟨_, _ | ⟨fits, below⟩, ended⟩ := control
      cases fits with
      | executing is => exact ⟨_, r, below, below', .handed is rfl (ended _ rfl)⟩
    all_goals exact nomatch next
  case visitFails =>
    cases next
    obtain ⟨j, _, awaits, _⟩ := control
    obtain ⟨_, descends, _⟩ := descending.visited _ _ rfl
    rcases awaits with _ | ⟨fits, below⟩
    cases fits
    cases descends with
    | dependency linked _ _ _ below' =>
      exact ⟨j, _, below, below',
        .of_fail linked.1 (Nat.le_refl _) rfl rfl (.fault (.visited rfl rfl))⟩
  case publishes way => rcases way.control with h | h <;> exact nomatch h.symm.trans next
  case handsOver after => rcases after.control with h | h <;> exact nomatch h.symm.trans next
  all_goals exact nomatch next

end Errors

end Machine

end ModuleSystem.Loader
