import ModuleSystem.Proofs.Loader.Causes

/-!
# Results of imports

The result of an import comes to whoever polls it by way of a job, and the job has it from a walk or
from the job that executes the module. Other imports may execute the module meanwhile, or fail it. So
the result and the module can drift apart (`Machine.Agrees`), but in two ways only: an executed module
does not fail with the error that its import ends with, and a module that has failed while its body
was under way stays so when the body ends well after all.

An import ends well because the walk has come back to the module where it started, or because the job
that executes this module has ended well. Either way the module has been executed
(`Machine.Fulfilled`).

## Main definitions

* `Machine.Agrees` : the result of an import agrees with the state of a module.
* `Machine.Fulfilled` : something holds of each module whose import has ended well.

## Main results

* `Machine.Run.agrees_of_answers` : how the result of an import and its module are related.
-/

namespace ModuleSystem.Loader

variable {C M : Type}

namespace Machine

open Store

/-- The result of an import agrees with the state of a module: the import has yielded the namespace of
the module, which is executed, or it has ended with the error that the module has failed with. -/
def Agrees (m : Machine C M) (r : RecordId) : Except LoaderError RecordId → Prop
  | .ok n => n = r ∧ m.store.stateOf r = .executed
  | .error error => m.store.stateOf r = .failed error

/-! ### Imports that end well -/

/-- Something holds of each module that a walk has started at and come back to, with no job left, and
of each whose import has ended well. -/
structure Fulfilled (P : RecordId → Prop) (ρ : Roles) (m : Machine C M) : Prop where
  fresh : ∀ r seen st, m.control = .visit r seen → m.stack = .executingGraph :: st → seen = []
  visited : ∀ j r seen st, m.control = .visited (.ok none) seen → m.stack = .executingGraph :: st →
    Awaits ρ (.visited j r) m.stack → P r
  ended : ∀ j r, ρ.Is j (.evaluate r) → m.Ends j (.ok ()) → P r

section Fulfilled

variable {host : Host C M} {ρ ρ' : Roles} {m m' : Machine C M} {trace : List (Machine C M)}
  {P P' : RecordId → Prop} {j : JobId} {r : RecordId} {seen : List RecordId} {st : List (Frame C)}

private theorem SoundStep.fresh (step : SoundStep host ρ ρ' m m') (next : m'.control = .visit r seen)
    (stack : m'.stack = .executingGraph :: st) : seen = [] := by
  have rule := step.rule
  cases rule
  case move move =>
    cases move
    case graphLinked =>
      cases next
      rfl
    case turnVisits => exact nomatch stack
    all_goals exact nomatch next
  case publishes way => rcases way.control with h | h <;> exact nomatch h.symm.trans next
  case handsOver after => rcases after.control with h | h <;> exact nomatch h.symm.trans next
  all_goals exact nomatch next

section Step

variable (fulfilled : m.Fulfilled P ρ) (step : SoundStep host ρ ρ' m m')
  (executed : ∀ r, (m.store.record r).state = .executed → P' r)
  (executing : ∀ r seen, m.control = .visit r seen → (m.store.record r).state = .executing →
    (m.store.record r).evaluation = none → P' r)
  (jobs : ∀ j r, ρ.Is j (.execute r) → m.Ends j (.ok ()) → P' r)

include fulfilled step executed executing jobs in
private theorem Fulfilled.visited_step (staged : m.Staged ρ) (barred : m.Barred ρ)
    (next : m'.control = .visited (.ok none) seen) (stack : m'.stack = .executingGraph :: st)
    (awaits : Awaits ρ' (.visited j r) m'.stack) : P' r := by
  have control := step.sound.control
  have le := step.follow.le
  have rule := step.rule
  -- the walk is at the module that its job is for
  have here : ∀ {i x}, Awaits ρ (.visited i x) m'.stack → r = x := fun awaits' => by
    rw [stack] at awaits awaits'
    exact awaits.eq_of_visited (awaits'.mono le)
  cases rule
  case move move =>
    cases move
    case visitSeen old =>
      obtain rfl := fulfilled.fresh _ _ st rfl stack
      exact absurd old List.not_mem_nil
    case visitExecuted x _ _ state =>
      obtain ⟨_, awaits', _⟩ := control
      obtain rfl := here awaits'
      exact executed r state
    case visitExecuting x _ _ state =>
      obtain ⟨_, awaits', _⟩ := control
      obtain rfl := here awaits'
      obtain ⟨idle, _⟩ := Control.visited.inj next
      exact executing r _ rfl state (Except.ok.inj idle)
    case visitUnlinked x _ _ state =>
      have linked := (barred.visit x _ rfl).linked
      rcases staged.entered x linked with entered | ⟨_, failed⟩
      · rcases state with state | state <;> exact absurd entered (by rw [state]; exact id)
      · rcases state with state | state <;> exact nomatch state.symm.trans failed
    case attempted x i _ =>
      obtain ⟨_, _ | ⟨fits, below⟩, finished⟩ := control
      cases fits with
      | executing is =>
        obtain rfl := here below
        exact jobs _ r is (.inl (finished _ rfl))
    all_goals exact nomatch next
  case publishes way => rcases way.control with h | h <;> exact nomatch h.symm.trans next
  case handsOver after => rcases after.control with h | h <;> exact nomatch h.symm.trans next
  all_goals exact nomatch next

include fulfilled step jobs in
private theorem Fulfilled.ended_step (kept : ∀ r, P r → P' r) (is' : ρ'.Is j (.evaluate r))
    (ends : m'.Ends j (.ok ())) : P' r := by
  rcases Nat.lt_or_ge j m.store.jobs.size with known | new
  · have is := step.follow.is_of_lt step.sound.store known is'
    rcases step.ends_cases known ends with before | ⟨next, st, stack⟩
    · exact kept r (fulfilled.ended j r is before)
    · obtain ⟨kind, is₀, succeeds⟩ := step.succeedsAs next stack
      cases is.eq is₀
      cases succeeds with
      | graph stack' hc awaits => exact kept r (fulfilled.visited _ r _ _ hc stack' awaits)
      | evaluation is ends => exact jobs _ r is ends
  · obtain ⟨_, _, same⟩ := step.ready_of_ends is' new ends
    exact nomatch same

end Step

/-- What holds of modules whose imports have ended well is kept by a step, if it holds of all modules
that a walk may find to be executed. -/
theorem Fulfilled.step (fulfilled : m.Fulfilled P ρ) (step : SoundStep host ρ ρ' m m')
    (staged : m.Staged ρ) (barred : m.Barred ρ) (kept : ∀ r, P r → P' r)
    (executed : ∀ r, (m.store.record r).state = .executed → P' r)
    (executing : ∀ r seen, m.control = .visit r seen → (m.store.record r).state = .executing →
      (m.store.record r).evaluation = none → P' r)
    (jobs : ∀ j r, ρ.Is j (.execute r) → m.Ends j (.ok ()) → P' r) : m'.Fulfilled P' ρ' where
  fresh _ _ _ next stack := step.fresh next stack
  visited _ _ _ _ next stack awaits :=
    fulfilled.visited_step step executed executing jobs staged barred next stack awaits
  ended _ _ is ends := fulfilled.ended_step step jobs kept is ends

theorem Fulfilled.pause (fulfilled : m.Fulfilled P ρ) (pause : SoundPause ρ m m')
    (kept : ∀ r, P r → P' r) : m'.Fulfilled P' ρ := by
  refine ⟨fun _ _ _ hc => ?_, fun _ _ _ _ hc => ?_, fun j r is ends => ?_⟩
  · rcases pause.control with ⟨_, h⟩ | ⟨_, h⟩ <;> exact nomatch h.symm.trans hc
  · rcases pause.control with ⟨_, h⟩ | ⟨_, h⟩ <;> exact nomatch h.symm.trans hc
  · exact kept r (fulfilled.ended j r is (pause.ends.mp ends))

private theorem fulfilled_start {base : Option Url} {resolver : Resolver} {memory : M} :
    Fulfilled (C := C) P {} { store := { base, resolver }, memory } :=
  ⟨nofun, nofun, nofun⟩

/-- The turn of a module that is executed has come. -/
theorem Traced.begun_of_executed (h : Traced host ρ (m :: trace))
    (executed : m.store.stateOf r = .executed) : m.Begun r where
  linked := h.staged.linked r (by
    rw [show (m.store.record r).state = .executed from executed]
    trivial)
  body := h.bodies.taken r (.inr executed)
  state := .inr (.inl executed)

/-- The turn of a module has come if a job that executes it has ended well. -/
theorem Traced.begun_of_executes (h : Traced host ρ (m :: trace)) (is : ρ.Is j (.execute r))
    (ends : m.Ends j (.ok ())) : m.Begun r := by
  refine h.invariant (P := fun ρ m => ∀ j r, ρ.Is j (.execute r) → m.Ends j (.ok ()) → m.Begun r)
    (fun _ _ _ => nofun) ?_ ?_ j r is ends
  · intro ρ ρ' m m' trace traced step ih j r is' ends
    rcases Nat.lt_or_ge j m.store.jobs.size with known | new
    · have is := step.follow.is_of_lt step.sound.store known is'
      refine step.begun traced.staged ?_
      rcases step.ends_cases known ends with before | ⟨next, st, stack⟩
      · exact ih j r is before
      · cases step.rule.stops step.sound is next stack with
        | body stack' _ _ _ =>
          exact traced.bodies.active r (by rw [stack']; exact List.mem_cons_self)
        | bodyless hc _ _ =>
          obtain ⟨i, _, _, has⟩ := step.sound.has_of_work hc
          exact traced.bodies.running i r none has
        | collects _ failed => exact absurd rfl failed
    · obtain ⟨_, _, same⟩ := step.ready_of_ends is' new ends
      exact nomatch same
  · intro ρ m m' trace traced pause ih j r is ends
    exact pause.begun.mpr (ih j r is (pause.ends.mp ends))

/-- The turn of a module has come if an import of it has ended well. -/
theorem Traced.begun_of_evaluates (h : Traced host ρ (m :: trace)) (is : ρ.Is j (.evaluate r))
    (ends : m.Ends j (.ok ())) : m.Begun r := by
  refine (h.invariant (P := fun ρ m => m.Fulfilled m.Begun ρ) (fun _ _ _ => fulfilled_start)
    (fun {ρ ρ' m m' trace} traced step fulfilled => ?_)
    fun {ρ m m' trace} _ pause fulfilled =>
      fulfilled.pause pause fun _ => pause.begun.mpr).ended j r is ends
  have begun : ∀ {r}, m.Begun r → m'.Begun r := step.begun traced.staged
  refine fulfilled.step step traced.staged traced.barred (fun _ => begun)
    (fun r executed => begun (traced.begun_of_executed executed))
    (fun r _ _ executing _ => begun ?_)
    fun j r is ends => begun (traced.begun_of_executes is ends)
  exact ⟨traced.staged.linked r (by rw [executing]; trivial),
      traced.bodies.taken r (.inl executing), .inl executing⟩

/-- A module is done if an import of it has ended well, as long as host code neither polls imports
nor gives up within one. -/
theorem Traced.done_of_evaluates (h : Traced host ρ (m :: trace)) (calm : ∀ x ∈ m :: trace, x.Calm)
    (is : ρ.Is j (.evaluate r)) (ends : m.Ends j (.ok ())) : m.Done r := by
  refine (h.invariant_of (P := fun ρ m => m.Fulfilled m.Done ρ) (fun _ _ _ => fulfilled_start)
    (fun {ρ ρ' m m' trace} traced calm step fulfilled => ?_)
    (fun {ρ m m' trace} _ pause fulfilled => fulfilled.pause pause fun r done => ?_)
    calm).ended j r is ends
  · have turns := traced.turns fun x mem => calm x (List.mem_cons_of_mem _ mem)
    have done : ∀ {r}, m.Done r → m'.Done r := turns.done_step traced.staged step
    refine fulfilled.step step traced.staged traced.barred (fun _ => done)
      (fun r executed => done (turns.executed r executed)) (fun r seen hc executing idle => ?_)
      fun j r is ends => done (turns.ended j r is ends)
    have flat := traced.isFlat fun x mem => (calm x (List.mem_cons_of_mem _ mem)).quiet
    exact absurd idle (turns.busy_of_visit step.sound flat hc executing)
  · have kept := pause.change.kept
    rwa [Done, kept.record, kept.milestones]

end Fulfilled

/-! ### Results of imports -/

section Results

variable {host : Host C M} {ρ : Roles} {m x : Machine C M} {trace earlier : List (Machine C M)}
  {r : RecordId} {url : Url} {handle : ImportHandle} {result : Except LoaderError RecordId}

/-- What agrees with a module goes on to do so, unless its turn has just come once more. -/
theorem Traced.agrees (h : Traced host ρ (m :: trace)) (mem : x ∈ m :: trace)
    (agrees : x.Agrees r result) (idle : ¬ m.Repeats r) : m.Agrees r result := by
  rcases h.leadsTo_or_repeats (r := r) mem with forward | ⟨_, repeats⟩
  · cases result with
    | ok n =>
      obtain ⟨same, executed⟩ := agrees
      rw [show (x.store.record r).state = .executed from executed] at forward
      exact ⟨same, forward⟩
    | error error =>
      rw [show (x.store.record r).state = .failed error from agrees] at forward
      exact forward
  · exact absurd repeats idle

/-- An import of a module that a result agrees with has this result at once. -/
theorem Imports.eq_settled (h : Imports host m url handle) (found : m.store.lookup url = some r)
    (agrees : m.Agrees r result) : handle = .settled result := by
  obtain ⟨_, rfl⟩ := h.step_of_lookup found
  cases result with
  | ok n =>
    obtain ⟨rfl, executed⟩ := agrees
    unfold stateOf at executed
    simp [importRecord, executed, ImportHandle.settled]
  | error error =>
    unfold Agrees stateOf at agrees
    simp [importRecord, agrees, ImportHandle.settled]

/-- No module is about to be executed while a request is answered. -/
theorem not_repeats_of_reply {reply : Reply} (hc : m.control = .reply reply) : ¬ m.Repeats r := by
  rintro ⟨_, _, _, next | ⟨_, next, _⟩⟩ <;> exact nomatch hc.symm.trans next

theorem Imports.not_repeats (h : Imports host m url handle) : ¬ m.Repeats r := by
  obtain ⟨_, _, hc, _⟩ := h
  rintro ⟨_, _, _, next | ⟨_, next, _⟩⟩ <;> exact nomatch hc.symm.trans next

/-- An import ends with an error that goes back to a module whose own it is, or it ends well, with the
namespace of its module, which has been executed before or by the job of the import. -/
theorem Traced.result_cases (h : Traced host ρ (m :: trace))
    (below : x.step host :: x :: earlier <:+ m :: trace) (imports : Imports host x url handle)
    (found : (x.step host).store.lookup url = some r) (alive : m.store.isAlive r = true)
    (answers : Answers (.poll handle) (.progress (some result)) (m :: trace)) :
    (∃ error, result = .error error ∧ Caused (m :: trace) error r) ∨
      result = .ok r ∧ (m.store.stateOf r = .executed ∨
        ∃ j, ρ.Is j (.evaluate r) ∧ m.Ends j (.ok ())) := by
  have mem : x.step host ∈ m :: trace := below.subset List.mem_cons_self
  have idle : ¬ m.Repeats r := not_repeats_of_reply answers.1
  rcases imports.handle_cases found with ⟨error, rfl, failed⟩ | ⟨rfl, executed⟩ | ⟨j, rfl⟩
  · have answer : Reply.progress (some result) = .progress (some (.error error)) :=
      h.answer_settled answers
    cases answer
    have agrees : m.Agrees r (.error error) := h.agrees mem failed idle
    exact .inl ⟨error, rfl, h.accounted.failed r error alive agrees⟩
  · have answer : Reply.progress (some result) = .progress (some (.ok r)) :=
      h.answer_settled answers
    cases answer
    have agrees : m.Agrees r (.ok r) := h.agrees mem ⟨rfl, executed⟩ idle
    exact .inr ⟨rfl, .inl agrees.2⟩
  · obtain ⟨is, outcome, answer, finished⟩ := h.answer answers
    cases outcome with
    | none => exact nomatch answer
    | some outcome =>
      cases outcome with
      | error error =>
        cases answer
        exact .inl ⟨error, rfl,
          h.accounted.ended j (.evaluate r) error is (.inl (finished _ rfl)) alive⟩
      | ok =>
        cases answer
        exact .inr ⟨rfl, .inr ⟨j, is, .inl (finished _ rfl)⟩⟩

/-- The module of an import that ends well is executed, or it has failed while its body was under way,
as long as host code neither polls imports nor gives up within one. -/
theorem Traced.agrees_or_released (h : Traced host ρ (m :: trace))
    (calm : ∀ x ∈ m :: trace, x.Calm) (alive : m.store.isAlive r = true) (idle : ¬ m.Repeats r)
    (ended : m.store.stateOf r = .executed ∨ ∃ j, ρ.Is j (.evaluate r) ∧ m.Ends j (.ok ())) :
    m.Agrees r (.ok r) ∨ .bodyEnded r true ∈ m.store.history ∧
      ∃ error, m.store.stateOf r = .failed error ∧
        ∃ y ∈ trace, .body r ∈ y.stack ∧ y.store.stateOf r = .failed error := by
  rcases ended with executed | ⟨j, is, ends⟩
  · exact .inl ⟨rfl, executed⟩
  rcases h.done_of_evaluates calm is ends with ended | ⟨executed, _⟩
  · rcases h.executed_or_failed alive ended with
      ⟨y, mem, executed⟩ | ⟨y, mem, active, error, failed⟩
    · exact .inl (h.agrees mem ⟨rfl, executed⟩ idle)
    · have agrees : m.Agrees r (.error error) := h.agrees (List.mem_cons_of_mem _ mem) failed idle
      exact .inr ⟨(List.mem_filter.mp ended).1, error, agrees, y, mem, active, failed⟩
  · exact .inl ⟨rfl, executed⟩

/-- The result of an import agrees with its module, and then another import of the URL has the same
result at once, as long as nothing happens to the URL. There are two ways around that. An import may
end with an error although the module has been executed; the error goes back to a module whose own it
is. And a module may have failed while its body was under way; when the body ends well all the same,
so does the import. Host code may start imports; if it also polls them, or gives up within one, all
that is known of an import that ends well is that the turn of its module has come. -/
theorem Run.agrees_of_answers (h : Run host (m :: trace)) (started : x :: earlier <:+ trace)
    (imports : Imports host x url handle) (found : (x.step host).store.lookup url = some r)
    (answers : Answers (.poll handle) (.progress (some result)) (m :: trace))
    (alive : m.store.isAlive r = true) :
    (∀ error, result = .error error → (m.Agrees r result ∨ m.store.stateOf r = .executed) ∧
      ∃ d, Relation.ReflTransGen (m.Inherits trace error) r d ∧ m.store.IsOwn d error) ∧
    (∀ n, result = .ok n → n = r ∧ m.Begun r ∧ ((∀ y ∈ m :: trace, y.Calm) →
      m.Agrees r result ∨ .bodyEnded r true ∈ m.store.history ∧
        ∃ error, m.store.stateOf r = .failed error ∧
          ∃ y ∈ trace, .body r ∈ y.stack ∧ y.store.stateOf r = .failed error)) ∧
    (m.Agrees r result → ∀ m' later handle', Run host (m' :: (later ++ m :: trace)) →
      Undisturbed url (x.step host) m' → Imports host m' url handle' →
      handle' = .settled result) := by
  obtain ⟨ρ, traced⟩ := h.exists_roles
  obtain ⟨between, rfl⟩ := started
  have below := (traced.step_of_busy imports.busy).2
  have idle : ¬ m.Repeats r := not_repeats_of_reply answers.1
  have result_cases := traced.result_cases below imports found alive answers
  refine ⟨fun error same => ?_, fun n same => ?_,
    fun agrees m' later handle' h' undisturbed again => ?_⟩
  · subst same
    rcases result_cases with ⟨_, same, cause⟩ | ⟨same, _⟩
    · cases same
      refine ⟨?_, traced.inherits cause⟩
      rcases traced.of_bears cause.bears with failed | executed | repeats
      · exact .inl failed
      · exact .inr executed
      · exact absurd repeats idle
    · exact nomatch same
  · subst same
    rcases result_cases with ⟨_, same, _⟩ | ⟨same, ended⟩
    · exact nomatch same
    · cases same
      refine ⟨rfl, ?_, fun calm => traced.agrees_or_released calm alive idle ended⟩
      rcases ended with executed | ⟨j, is, ends⟩
      · exact traced.begun_of_executed executed
      · exact traced.begun_of_evaluates is ends
  · obtain ⟨_, traced'⟩ := h'.exists_roles
    have found' : m'.store.lookup url = some r := traced'.lookup_of_undisturbed
      (below.trans ⟨m' :: later, rfl⟩) found undisturbed
    have mem : m ∈ m' :: (later ++ m :: (between ++ x :: earlier)) := by simp
    exact again.eq_settled found' (traced'.agrees mem agrees again.not_repeats)

end Results

/-- Two modules that depend on each other; the body of one of them waits for a gate. The other one
also needs a module whose body waits for another gate. A fourth module imports the former. -/
def releasedModules : List (String × Script.Program) :=
  [("x:/a", { dependencies := [("x:/b", none), ("x:/f", none)], body := some (.steps []) }),
   ("x:/b", { dependencies := [("x:/a", none)], body := some (.steps [.wait "g"]) }),
   ("x:/f", { body := some (.steps [.wait "h"]) }),
   ("x:/y", { dependencies := [("x:/b", none)] })]

/-- Both modules are imported, the second gate is closed for good, the fourth module is imported, and
the first gate is opened. -/
def releasedStimuli : List (Stimulus Script.Memory) :=
  [.request (.start "x:/a" none), .request (.poll (.waiting 1 5)), .request (.poll (.waiting 0 2)),
   .remember fun memory => memory.settleGate "h" (.error { message := "boom" }), .signal "h",
   .request (.poll (.waiting 1 5)), .request (.start "x:/y" none), .request (.poll (.waiting 3 13)),
   .remember fun memory => memory.settleGate "g" (.ok ()), .signal "g",
   .request (.poll (.waiting 0 2))]

section Released

/-- What the import of the module with the first gate comes to. -/
def releasedEnd : Machine Script.Code Script.Memory :=
  scriptedEnd releasedModules "x:/b" releasedStimuli 200

/-- The states before. -/
def releasedTrace : List (Machine Script.Code Script.Memory) :=
  (scripted releasedModules "x:/b" releasedStimuli 200).tail

/-- The state in which this import is started. -/
def releasedStart : Machine Script.Code Script.Memory :=
  (scriptedLoader releasedModules).request (.start "x:/b" none)

/-- The import yields the namespace of a module that has failed while its body was under way. -/
theorem Run.agrees_of_answers_released :
    Imports Script.host releasedStart { scheme := "x", path := "/b" } (.waiting 0 2) ∧
    Answers (.poll (.waiting 0 2)) (.progress (some (.ok 0))) (releasedEnd :: releasedTrace) ∧
    releasedEnd.store.isAlive 0 = true ∧ releasedEnd.Begun 0 ∧
    .bodyEnded 0 true ∈ releasedEnd.store.history ∧
    ∃ error, releasedEnd.store.stateOf 0 = .failed error := by
  have run : Run Script.host (releasedEnd :: releasedTrace) :=
    .scripted releasedModules "x:/b" _ _
  have imports : Imports Script.host releasedStart { scheme := "x", path := "/b" } (.waiting 0 2) :=
    .of_hasIssued rfl (by decide +kernel) (by decide +kernel)
  have reply : releasedEnd.reply? = some (.progress (some (.ok 0))) := by decide +kernel
  have started : [releasedStart, scriptedLoader releasedModules] <:+ releasedTrace :=
    suffix_scripted _ _ _ _ (by rw [show scriptedEnd _ _ _ _ = releasedEnd from rfl, reply]; rfl)
  have answers : Answers (.poll (.waiting 0 2)) (.progress (some (.ok 0)))
      (releasedEnd :: releasedTrace) := answers_of_isPolling reply (by decide +kernel)
  have alive : releasedEnd.store.isAlive 0 = true := by decide +kernel
  have calm : ∀ x ∈ releasedEnd :: releasedTrace, x.Calm := by decide +kernel
  have failed : releasedEnd.store.stateOf 0 ≠ .executed := by decide +kernel
  obtain ⟨-, ends, -⟩ :=
    Run.agrees_of_answers run started imports (imports.lookup rfl) answers alive
  obtain ⟨-, begun, drifts⟩ := ends 0 rfl
  obtain ⟨ended, error, state, -⟩ := (drifts calm).resolve_left fun agrees => failed agrees.2
  exact ⟨imports, answers, alive, begun, ended, error, state⟩

end Released

end Machine

end ModuleSystem.Loader
