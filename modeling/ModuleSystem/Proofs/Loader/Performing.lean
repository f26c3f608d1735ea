import ModuleSystem.Proofs.Loader.Exploring
import ModuleSystem.Proofs.Loader.PostOrder

/-!
# Executing a graph at once

When a graph is linked and no body has to wait, a walk that executes the graph lists its modules in
post-order, and each module has its turn when it is listed. When a body fails, its module fails with
the error, and so do the modules on the path on which the walk has come there; nothing else happens.

## Main definitions

* `Store.Performs` : some modules have had their turns, or have failed.
* `Store.Walked` : what a walk leaves behind, and what it ends with.

## Main results

* `Machine.Synchronous.visits` : a walk does what the depth-first post-order says.
-/

namespace ModuleSystem.Loader

variable {C M : Type}

namespace Store

/-- Between two stores nothing has happened to the modules apart from those in `ran`; the bodies have
started and ended as in `events`. -/
structure Performs (s s' : Store C) (ran : List RecordId) (events : List Event) : Prop where
  size_records : s'.records.size = s.records.size
  registry : s'.registry = s.registry
  retired : s'.retired = s.retired
  resolve : s'.resolve = s.resolve
  bodies : s'.bodies = s.bodies ++ events
  identity : ∀ r, (s.record r).SameIdentity (s'.record r)
  firstReferrer : ∀ r, (s'.record r).firstReferrer = (s.record r).firstReferrer
  executed : ∀ r, (s.record r).state = .executed → (s'.record r).state = .executed
  others : ∀ r ∉ ran, (s.record r).Alike (s'.record r)

/-- The starts and ends of the bodies of some modules, one after the other, if all end well. -/
def performance (s : Store C) (order : List RecordId) : List Event :=
  order.flatMap fun r =>
    if (s.record r).body.isSome then [.bodyStarted r, .bodyEnded r true] else []

/-- What a walk leaves behind that executes the modules in `order`, each of which is listed with the
path to it, `outer` being the path to where the walk has started. If no body fails, all modules are
executed. Else those before the first one whose body fails are, and it fails itself, as do the modules
on the path to it. -/
inductive Walked (s s' : Store C) (order : List (RecordId × List RecordId)) (outer : List RecordId) :
    Outcome → Prop
  | succeeds (performs : s.Performs s' (order.map Prod.fst) (s.performance (order.map Prod.fst)))
      (done : ∀ v ∈ order, (s'.record v.1).state = .executed) : Walked s s' order outer (.ok ())
  | fails {before f inner after reason error} (split : order = before ++ (f, inner ++ outer) :: after)
      (cause : error = .execution (s.record f).url (s.record f).firstReferrer reason)
      (performs : s.Performs s' (before.map Prod.fst ++ f :: inner)
        (s.performance (before.map Prod.fst) ++ [.bodyStarted f, .bodyEnded f false]))
      (done : ∀ v ∈ before, (s'.record v.1).state = .executed)
      (failed : ∀ r ∈ f :: inner, (s'.record r).state = .failed error) :
      Walked s s' order outer (.error error)

section Performs

variable {s s' s₁ s₂ s₃ : Store C} {r : RecordId} {j : JobId} {ran ran' : List RecordId}
  {events events' : List Event} {l : Listener} {outcome : Outcome} {state : JobState C}

theorem Performs.mono (h : Performs s s' ran events) (sub : ran ⊆ ran') :
    Performs s s' ran' events :=
  { h with others := fun r hr => h.others r fun mem => hr (sub mem) }

theorem Performs.trans (h : Performs s₁ s₂ ran events) (h' : Performs s₂ s₃ ran events') :
    Performs s₁ s₃ ran (events ++ events') where
  size_records := h'.size_records.trans h.size_records
  registry := h'.registry.trans h.registry
  retired := h'.retired.trans h.retired
  resolve := h'.resolve.trans h.resolve
  bodies := by rw [h'.bodies, h.bodies, List.append_assoc]
  identity r := (h.identity r).trans (h'.identity r)
  firstReferrer r := (h'.firstReferrer r).trans (h.firstReferrer r)
  executed r done := h'.executed r (h.executed r done)
  others r hr := (h.others r hr).trans (h'.others r hr)

theorem Performs.isAlive (h : Performs s s' ran events) : s'.isAlive = s.isAlive := by
  funext r
  rw [Store.isAlive, h.retired, Store.isAlive]

/-- What happens that is not about modules. -/
theorem Steady.performs (h : Steady s s') (same : ∀ r, (s.record r).Alike (s'.record r)) :
    Performs s s' ran [] where
  size_records := h.size_records
  registry := h.registry
  retired := h.retired
  resolve := h.resolve
  bodies := by rw [h.bodies, List.append_nil]
  identity r := (same r).sameIdentity
  firstReferrer r := (same r).firstReferrer
  executed r done := (same r).state.trans done
  others r _ := same r

theorem Untouched.performs (h : Untouched s s') : Performs s s' ran [] :=
  h.toSteady.performs h.record

theorem performs_take : Performs s (s.take j l) ran [] :=
  steady_take.performs fun _ => by
    rw [take_same.1]
    exact .refl _

theorem performs_finish : Performs s (s.finish j outcome) ran [] :=
  steady_finish.performs fun _ => by
    rw [finish_same.1]
    exact .refl _

theorem performs_newJob : Performs s (s.newJob state).1 ran [] :=
  ⟨rfl, rfl, rfl, rfl, (List.append_nil _).symm, fun _ => (Record.Alike.refl _).sameIdentity,
    fun _ => rfl, fun _ h => h, fun _ _ => .refl _⟩

theorem performs_note {e : Event} (h : e.isBody = true) : Performs s (s.note e) ran [e] :=
  ⟨rfl, rfl, rfl, rfl, bodies_note h, fun _ => (Record.Alike.refl _).sameIdentity,
    fun _ => rfl, fun _ h => h, fun _ _ => .refl _⟩

/-- Something happens to a module that is not executed, or becomes so. -/
theorem Steady.performs_self (h : Steady s s') (others : ∀ i ≠ r, s'.record i = s.record i)
    (identity : (s.record r).SameIdentity (s'.record r))
    (firstReferrer : (s'.record r).firstReferrer = (s.record r).firstReferrer)
    (executed : (s.record r).state = .executed → (s'.record r).state = .executed) (mem : r ∈ ran) :
    Performs s s' ran [] where
  size_records := h.size_records
  registry := h.registry
  retired := h.retired
  resolve := h.resolve
  bodies := by rw [h.bodies, List.append_nil]
  identity i := by
    by_cases same : i = r
    · exact same ▸ identity
    · exact others i same ▸ (Record.Alike.refl _).sameIdentity
  firstReferrer i := by
    by_cases same : i = r
    · exact same ▸ firstReferrer
    · rw [others i same]
  executed i := by
    by_cases same : i = r
    · exact same ▸ executed
    · rw [others i same]
      exact id
  others i hi := by
    rw [others i fun same => hi (same ▸ mem)]
    exact .refl _

theorem performs_takeTurn (known : r < s.records.size) (linked : (s.record r).state = .linked) :
    Performs s (s.takeTurn r) [r] [] := by
  have record := record_takeTurn_self known
  rw [Record.enter, linked] at record
  refine steady_takeTurn.performs_self (fun i ne => record_takeTurn_of_ne ne) ?_ ?_ ?_
    List.mem_cons_self
  · rw [record]
    exact ⟨rfl, rfl, rfl, rfl⟩
  · rw [record]
  · simp [linked]

theorem performs_setEvaluation (idle : (s.record r).evaluation = none) :
    Performs s (s.setEvaluation r none) ran [] :=
  (untouched_update (f := fun x => { x with evaluation := none })
    ⟨⟨rfl, rfl, rfl, rfl, rfl, rfl, idle.symm, rfl⟩, rfl, rfl, rfl⟩).performs

theorem performs_enter (known : r < s.records.size) (active : (s.record r).state = .executing) :
    Performs s (s.enter r .executed) [r] [] ∧ ((s.enter r .executed).record r).state = .executed := by
  have record : (s.enter r .executed).record r = (s.record r).enter .executed :=
    record_enter_self known
  rw [Record.enter, active] at record
  refine ⟨steady_enter.performs_self (fun i ne => record_enter_of_ne ne) ?_ ?_ ?_
    List.mem_cons_self, by rw [record]⟩
  · rw [record]
    exact ⟨rfl, rfl, rfl, rfl⟩
  · rw [record]
  · simp [active]

/-- A module fails that is linked or executing. -/
theorem performs_fail (error : LoaderError) (known : r < s.records.size)
    (active : (s.record r).state = .linked ∨ (s.record r).state = .executing) :
    Performs s (s.fail r error).1 [r] [] ∧
      ((s.fail r error).1.record r).state = .failed error ∧ (s.fail r error).2 = error := by
  have record : (s.fail r error).1.record r = (s.record r).poison error := record_fail_self known
  have poisoned : (s.record r).poison error =
      { s.record r with state := .failed error, body := none, pendingSetters := [] } := by
    rw [Record.poison]
    rcases active with active | active <;> simp [active]
  rw [poisoned] at record
  refine ⟨steady_fail.performs_self (fun i ne => record_fail_of_ne ne) ?_ ?_ ?_
    List.mem_cons_self, by rw [record], ?_⟩
  · rw [record]
    exact ⟨rfl, rfl, rfl, rfl⟩
  · rw [record]
  · rcases active with active | active <;> simp [active]
  · have state : (s.fail r error).2 = (((s.fail r error).1.record r).state.error?).getD error := by
      simp only [fail, stateOf_eq]
    rw [state, record]
    rfl

theorem performance_congr {order : List RecordId}
    (same : ∀ r ∈ order, (s'.record r).body = (s.record r).body) :
    s'.performance order = s.performance order :=
  List.flatMap_congr fun r hr => by rw [same r hr]

end Performs

section Walked

variable {s₁ s₂ s₃ s s' : Store C} {r : RecordId} {outer outer' : List RecordId}
  {order order' : List (RecordId × List RecordId)} {outcome : Outcome} {error : LoaderError}

/-- A walk has executed some modules, and goes on with others. -/
theorem Walked.append (h : Walked s₁ s₂ order outer' (.ok ())) (h' : Walked s₂ s₃ order' outer outcome)
    (apart : ∀ v ∈ order', v.1 ∉ order.map Prod.fst) : Walked s₁ s₃ (order ++ order') outer outcome := by
  obtain ⟨performs, done⟩ : s₁.Performs s₂ (order.map Prod.fst)
      (s₁.performance (order.map Prod.fst)) ∧ ∀ v ∈ order, (s₂.record v.1).state = .executed := by
    cases h with
    | succeeds performs done => exact ⟨performs, done⟩
  have same : ∀ rs : List RecordId, rs ⊆ order'.map Prod.fst →
      s₂.performance rs = s₁.performance rs := by
    refine fun rs sub => performance_congr fun r hr => (performs.others r ?_).body
    obtain ⟨v, hv, rfl⟩ := List.mem_map.mp (sub hr)
    exact apart v hv
  cases h' with
  | succeeds performs' done' =>
    refine .succeeds ?_ fun v hv => ?_
    · rw [List.map_append, performance, List.flatMap_append]
      rw [same _ (List.Subset.refl _)] at performs'
      exact (performs.mono (List.subset_append_left _ _)).trans
        (performs'.mono (List.subset_append_right _ _))
    · rcases List.mem_append.mp hv with hv | hv
      · exact performs'.executed _ (done v hv)
      · exact done' v hv
  | @fails before f inner after reason error split cause performs' done' failed =>
    have sub : before ⊆ order' := split ▸ List.subset_append_left _ _
    have split' : order ++ order' = (order ++ before) ++ (f, inner ++ outer) :: after := by
      rw [split, List.append_assoc]
    have cause' : error = .execution (s₁.record f).url (s₁.record f).firstReferrer reason := by
      rw [cause, (performs.identity f).url, performs.firstReferrer]
    refine .fails split' cause' ?_ (fun v hv => ?_) failed
    · rw [same _ (List.map_subset _ sub)] at performs'
      rw [List.map_append, performance, List.flatMap_append, List.append_assoc, List.append_assoc]
      exact (performs.mono (List.subset_append_left _ _)).trans
        (performs'.mono (List.subset_append_right _ _))
    · rcases List.mem_append.mp hv with hv | hv
      · exact performs'.executed _ (done v hv)
      · exact done' v hv

/-- A walk that has failed does not go on. -/
theorem Walked.cut (h : Walked s s' order outer (.error error)) :
    Walked s s' (order ++ order') outer (.error error) := by
  cases h with
  | fails split cause performs done failed =>
    exact .fails (by rw [split, List.append_assoc, List.cons_append]) cause performs done failed

/-- A walk that has failed at a dependency fails at the dependent. -/
theorem Walked.climb (h : Walked s s₁ order (r :: outer) (.error error))
    (h' : Performs s₁ s₂ [r] []) (own : (s₂.record r).state = .failed error) :
    Walked s s₂ order outer (.error error) := by
  cases h with
  | @fails before f inner after reason _ split cause performs done failed =>
    have split' : order = before ++ (f, (inner ++ [r]) ++ outer) :: after := by
      rw [split, List.append_assoc, List.singleton_append]
    refine .fails split' cause ?_ (fun v hv => h'.executed _ (done v hv)) fun x hx => ?_
    · have sub : before.map Prod.fst ++ f :: inner ⊆ before.map Prod.fst ++ f :: (inner ++ [r]) := by
        rw [← List.cons_append, ← List.append_assoc]
        exact List.subset_append_left _ _
      have mem : r ∈ before.map Prod.fst ++ f :: (inner ++ [r]) := by simp
      have all := (performs.mono sub).trans (h'.mono fun x hx => List.mem_singleton.mp hx ▸ mem)
      rwa [List.append_nil] at all
    · by_cases same : x = r
      · rw [same, own]
      · rw [← List.cons_append, List.mem_append, List.mem_singleton] at hx
        rw [(h'.others x (by simpa using same)).state, failed x (hx.resolve_right same)]

/-- A module that is neither listed nor on a path is left alone. -/
theorem Walked.alike (h : Walked s s' order outer outcome) (apart : r ∉ order.map Prod.fst)
    (paths : ∀ f between, (f, between ++ outer) ∈ order → r ∉ between) :
    (s.record r).Alike (s'.record r) := by
  cases h with
  | succeeds performs _ => exact performs.others r apart
  | @fails before f inner after reason _ split _ performs _ _ =>
    refine performs.others r fun mem => ?_
    rcases List.mem_append.mp mem with mem | mem
    · refine apart ?_
      rw [split, List.map_append]
      exact List.mem_append_left _ mem
    rcases List.mem_cons.mp mem with rfl | mem
    · exact apart (by simp [split])
    · exact paths f inner (by simp [split]) mem

/-- What has been executed stays so, and all else that a walk is about stays where it is. -/
theorem Walked.same (h : Walked s s' order outer outcome) :
    s'.records.size = s.records.size ∧ s'.isAlive = s.isAlive ∧
      (∀ r, (s.record r).state = .executed → (s'.record r).state = .executed) ∧
      ∀ r, (s'.record r).evaluation = (s.record r).evaluation := by
  cases h with
  | succeeds performs _ | fails _ _ performs _ _ =>
    exact ⟨performs.size_records, performs.isAlive, performs.executed,
      fun r => (performs.identity r).evaluation⟩

end Walked

/-- The modules that a walk lists are linked to the dependencies that it follows, those that it skips
are executed, and none that it looks at is being executed by a job. -/
structure Follows (s : Store C) (edges : RecordId → List RecordId) (skip : RecordId → Prop)
    (order : List (RecordId × List RecordId)) (seen : List RecordId) : Prop where
  known : ∀ v ∈ order, v.1 < s.records.size
  alive : ∀ v ∈ order, s.isAlive v.1 = true
  linked : ∀ v ∈ order, (s.record v.1).state = .linked
  dependencies : ∀ v ∈ order, (s.record v.1).dependencies = edges v.1
  executed : ∀ r, skip r → (s.record r).state = .executed
  idle : ∀ r ∈ seen, (s.record r).evaluation = none

section Follows

variable {s s' : Store C} {edges : RecordId → List RecordId} {skip : RecordId → Prop}
  {order order' : List (RecordId × List RecordId)} {seen seen' outer : List RecordId}

theorem Follows.mono (h : s.Follows edges skip order seen) (sub : order' ⊆ order)
    (sub' : seen' ⊆ seen) : s.Follows edges skip order' seen' :=
  ⟨fun v hv => h.known v (sub hv), fun v hv => h.alive v (sub hv), fun v hv => h.linked v (sub hv),
    fun v hv => h.dependencies v (sub hv), h.executed, fun r hr => h.idle r (sub' hr)⟩

/-- A walk that has executed some modules goes on to follow others. -/
theorem Follows.after (h : s.Follows edges skip order seen)
    (walked : Walked s s' order' outer (.ok ())) (apart : ∀ v ∈ order, v.1 ∉ order'.map Prod.fst) :
    s'.Follows edges skip order seen := by
  obtain ⟨size, isAlive, executed, evaluation⟩ := walked.same
  have alike : ∀ v ∈ order, (s.record v.1).Alike (s'.record v.1) := by
    intro v hv
    cases walked with
    | succeeds performs _ => exact performs.others v.1 (apart v hv)
  exact ⟨fun v hv => size ▸ h.known v hv, fun v hv => isAlive ▸ h.alive v hv,
    fun v hv => (alike v hv).state.trans (h.linked v hv),
    fun v hv => (alike v hv).dependencies.trans (h.dependencies v hv),
    fun r hr => executed r (h.executed r hr), fun r hr => (evaluation r).trans (h.idle r hr)⟩

end Follows

end Store

namespace Machine

open Store

section Turn

variable {host : Host C M} {limit : Nat} {s : Store C} {memory : M} {st : List (Frame C)}
  {c : Control C} {r : RecordId} {j : JobId} {seen : List RecordId}

/-- The job of a turn ends, and with it the turn. -/
private theorem ended_runsTo (host : Host C M) (s : Store C) (memory : M) (st : List (Frame C))
    (r : RecordId) (j : JobId) (seen : List RecordId) (outcome : Outcome) :
    RunsTo host ⟨s, memory, .advancing j :: .executing r j seen :: st, .ended outcome⟩
      ⟨s.finish j outcome, memory, st, .visited (outcome.map fun _ => none) seen⟩ := by
  have ends : step host ⟨s, memory, .advancing j :: .executing r j seen :: st, .ended outcome⟩ =
      ⟨s.finish j outcome, memory, .executing r j seen :: st, .polled (some outcome)⟩ := rfl
  have attempts : step host
      ⟨s.finish j outcome, memory, .executing r j seen :: st, .polled (some outcome)⟩ =
        ⟨s.finish j outcome, memory, st, .visited (outcome.map fun _ => none) seen⟩ := by
    cases outcome <;> rfl
  exact (RunsTo.of_step ends (by simp)).trans (.of_step attempts (by simp))

/-- A module whose body has failed fails with that error. -/
private theorem endBody_error {error : LoaderError} {reason : HostError} (known : r < s.records.size)
    (alive : s.isAlive r = true)
    (cause : error = .execution (s.record r).url (s.record r).firstReferrer reason)
    (same : ((s.setEvaluation r none).fail r error).2 = error) :
    endBody ⟨s, memory, st, c⟩ r (.error reason) =
      ⟨((s.setEvaluation r none).fail r error).1, memory, st, .ended (.error error)⟩ := by
  have record : (s.setEvaluation r none).record r = { s.record r with evaluation := none } :=
    record_setEvaluation_self known
  have fails : endBody ⟨s, memory, st, c⟩ r (.error reason) =
      failModule ⟨s.setEvaluation r none, memory, st, c⟩ r
        (.execution ((s.setEvaluation r none).record r).url
          ((s.setEvaluation r none).record r).firstReferrer reason) := by
    simp only [endBody, alive]
    rfl
  rw [fails, record, failModule]
  dsimp only
  rw [← cause, same]

/-- The turn of a module ends as its body has ended. -/
private theorem endBody_runsTo (host : Host C M) (memory : M) (st : List (Frame C)) (j : JobId)
    (seen : List RecordId) (c : Control C) (result : Except HostError Unit) (known : r < s.records.size)
    (alive : s.isAlive r = true) (active : (s.record r).state = .executing)
    (idle : (s.record r).evaluation = none) :
    ∃ s' : Store C, ∃ outcome : Outcome, RunsTo host
        (endBody ⟨s, memory, .advancing j :: .executing r j seen :: st, c⟩ r result)
        ⟨s', memory, st, .visited (outcome.map fun _ => none) seen⟩ ∧
      Performs s s' [r] [] ∧
      (result = .ok () ∧ outcome = .ok () ∧ (s'.record r).state = .executed ∨
        ∃ reason, result = .error reason ∧
          outcome = .error (.execution (s.record r).url (s.record r).firstReferrer reason) ∧
          (s'.record r).state =
            .failed (.execution (s.record r).url (s.record r).firstReferrer reason)) := by
  have calms : Performs s (s.setEvaluation r none) [r] [] := performs_setEvaluation idle
  have known' : r < (s.setEvaluation r none).records.size := by simpa [setEvaluation] using known
  have active' : ((s.setEvaluation r none).record r).state = .executing := by
    rw [record_setEvaluation_self known, active]
  cases result with
  | ok =>
    have enters : endBody ⟨s, memory, .advancing j :: .executing r j seen :: st, c⟩ r (.ok ()) =
        ⟨(s.setEvaluation r none).enter r .executed, memory, .advancing j :: .executing r j seen :: st,
          .ended (.ok ())⟩ := by
      simp only [endBody, alive]
      rfl
    obtain ⟨performs, executed⟩ := performs_enter known' active'
    rw [enters]
    refine ⟨_, .ok (), ended_runsTo .., ?_, .inl ⟨rfl, rfl, by rwa [finish_same.1]⟩⟩
    exact (calms.trans performs).trans performs_finish
  | error reason =>
    obtain ⟨error, cause⟩ : ∃ error : LoaderError,
        error = .execution (s.record r).url (s.record r).firstReferrer reason := ⟨_, rfl⟩
    obtain ⟨performs, failed, same⟩ := performs_fail error known' (.inr active')
    rw [endBody_error known alive cause same]
    refine ⟨_, .error error, ended_runsTo .., ?_, .inr ⟨reason, rfl, by rw [cause], ?_⟩⟩
    swap
    · rw [finish_same.1, failed, cause]
    exact (calms.trans performs).trans performs_finish

/-- The turn of a module has come: its body runs to its end, if it has one. -/
private theorem Synchronous.turns
    (sync : Synchronous host limit (visitDependencies ⟨s, memory, st, c⟩ r [] [] seen))
    (outer : List RecordId) (known : r < s.records.size) (alive : s.isAlive r = true)
    (linked : (s.record r).state = .linked) (idle : (s.record r).evaluation = none) :
    ∃ s' memory', ∃ outcome : Outcome,
      RunsTo host (visitDependencies ⟨s, memory, st, c⟩ r [] [] seen)
        ⟨s', memory', st, .visited (outcome.map fun _ => none) seen⟩ ∧
      Walked s s' [(r, outer)] outer outcome := by
  obtain ⟨body, hbody⟩ : ∃ body, (s.record r).body = body := ⟨_, rfl⟩
  obtain ⟨j, hj⟩ : ∃ j, (s.takeTurn r).jobs.size = j := ⟨_, rfl⟩
  have polls : visitDependencies ⟨s, memory, st, c⟩ r [] [] seen =
      ⟨((s.takeTurn r).newJob (.waiting (.runBody r body))).1, memory,
        .executing r j seen :: st, .poll j⟩ := by
    have kept : ((s.enter r .executing).record r).body = body := by
      rw [record_enter_self known, Record.enter_same.2.2.2.2.2.2.2, hbody]
    subst hj
    simp only [visitDependencies, List.isEmpty_nil, Bool.not_true, Bool.false_eq_true, if_false, kept]
    rfl
  have takes : ∃ l, step host ⟨((s.takeTurn r).newJob (.waiting (.runBody r body))).1, memory,
        .executing r j seen :: st, .poll j⟩ =
      ⟨((s.takeTurn r).newJob (.waiting (.runBody r body))).1.take j l, memory,
        .advancing j :: .executing r j seen :: st, .work (.runBody r body)⟩ := by
    have waits : (((s.takeTurn r).newJob (.waiting (.runBody r body))).1.job j).state =
        .waiting (.runBody r body) := by
      rw [state_job_newJob, if_pos hj.symm]
    exact ⟨_, by simp only [step, poll, waits]; rfl⟩
  obtain ⟨l, takes⟩ := takes
  have begins := polls ▸ RunsTo.of_step takes (by simp)
  have performs : Performs s (((s.takeTurn r).newJob (.waiting (.runBody r body))).1.take j l) [r]
      [] :=
    ((performs_takeTurn known linked).trans performs_newJob).trans performs_take
  have record : (((s.takeTurn r).newJob (.waiting (.runBody r body))).1.take j l).record r =
      { s.record r with state := .executing, body := none } := by
    rw [take_same.1, newJob_same.1, record_takeTurn_self known, Record.enter, linked]
  generalize ((s.takeTurn r).newJob (.waiting (.runBody r body))).1.take j l = s₁ at *
  have known₁ : r < s₁.records.size := performs.size_records ▸ known
  have alive₁ : s₁.isAlive r = true := by rw [performs.isAlive, alive]
  have active₁ : (s₁.record r).state = .executing := by rw [record]
  have idle₁ : (s₁.record r).evaluation = none := by rw [record, idle]
  cases body with
  | none =>
    have works : step host ⟨s₁, memory, .advancing j :: .executing r j seen :: st,
          .work (.runBody r none)⟩ =
        endBody ⟨s₁, memory, .advancing j :: .executing r j seen :: st, .work (.runBody r none)⟩ r
          (.ok ()) := rfl
    obtain ⟨s', outcome, runs, performs', ⟨_, rfl, executed⟩ | ⟨_, absurd, _⟩⟩ :=
      endBody_runsTo host memory st j seen (.work (.runBody r none)) (.ok ()) known₁ alive₁ active₁
        idle₁
    · refine ⟨s', memory, .ok (), (begins.trans (.of_step works (by simp))).trans runs,
        .succeeds ?_ fun v hv => ?_⟩
      · have silent : s.performance [r] = [] := by simp [performance, hbody]
        rw [List.map_singleton, silent]
        exact performs.trans performs'
      · rw [List.mem_singleton.mp hv, executed]
    · cases absurd
  | some code =>
    have starts : step host ⟨s₁, memory, .advancing j :: .executing r j seen :: st,
          .work (.runBody r (some code))⟩ =
        ⟨s₁.note (.bodyStarted r), memory,
          .body r :: .advancing j :: .executing r j seen :: st, .host code⟩ := rfl
    have started := begins.trans (.of_step starts (by simp))
    obtain ⟨s₂, memory₁, memory₂, code', result, runs, same, ends⟩ :=
      (sync.of_runsTo started).ends_body
    have leaves : step host ⟨s₂, memory₁, .body r :: .advancing j :: .executing r j seen :: st,
          .host code'⟩ =
        endBody ⟨s₂.note (.bodyEnded r result.toOption.isSome), memory₂,
          .advancing j :: .executing r j seen :: st, .host code'⟩ r (result.map fun _ => ()) := by
      simp only [step, runHost, ends, hostEnds]
      rfl
    have left := (started.trans runs).trans (.of_step leaves (by simp))
    have alike := same.record r
    rw [note_same.1] at alike
    have performs₂ : Performs s (s₂.note (.bodyEnded r result.toOption.isSome)) [r]
        [.bodyStarted r, .bodyEnded r result.toOption.isSome] :=
      ((performs.trans (performs_note rfl)).trans same.performs).trans (performs_note rfl)
    obtain ⟨s', outcome, runs', performs', ending⟩ :=
      endBody_runsTo host memory₂ st j seen (.host code') (result.map fun _ => ())
        (s := s₂.note (.bodyEnded r result.toOption.isSome)) (r := r)
        (performs₂.size_records ▸ known) (by rw [performs₂.isAlive, alive])
        (by rw [note_same.1, alike.state, active₁]) (by rw [note_same.1, alike.evaluation, idle₁])
    have all := performs₂.trans performs'
    rw [List.append_nil] at all
    refine ⟨s', memory₂, outcome, left.trans runs', ?_⟩
    cases result with
    | ok registration =>
      obtain ⟨_, rfl, executed⟩ | ⟨_, absurd, _⟩ := ending
      · refine .succeeds ?_ fun v hv => ?_
        · have heard : s.performance [r] = [.bodyStarted r, .bodyEnded r true] := by
            simp [performance, hbody]
          rw [List.map_singleton, heard]
          exact all
        · rw [List.mem_singleton.mp hv, executed]
      · cases absurd
    | error reason =>
      obtain ⟨absurd, _⟩ | ⟨_, same', rfl, failed⟩ := ending
      · cases absurd
      · cases same'
        rw [note_same.1, alike.url, alike.firstReferrer, record] at failed ⊢
        refine .fails (show [(r, outer)] = [] ++ (r, [] ++ outer) :: [] from rfl) rfl all
          (by simp) fun x hx => ?_
        rw [List.mem_singleton.mp hx, failed]

end Turn

/-- A walk visits the dependencies of a module: in the end all of them have been visited, or one has
failed, and with it the module. -/
def VisitsAll (host : Host C M) (m : Machine C M) (r : RecordId) (rs seen : List RecordId)
    (order : List (RecordId × List RecordId)) (seen' outer : List RecordId) : Prop :=
  ∃ s' memory', ∃ outcome : Outcome, Walked m.store s' order outer outcome ∧
    match outcome with
    | .ok () => ∃ c, RunsTo host (m.visitDependencies r rs [] seen)
        (visitDependencies ⟨s', memory', m.stack, c⟩ r [] [] seen')
    | .error error => ∃ seen'', RunsTo host (m.visitDependencies r rs [] seen)
        ⟨s', memory', m.stack, .visited (.error error) seen''⟩

section Visiting

variable {host : Host C M} {limit : Nat} {s : Store C} {memory : M} {st : List (Frame C)}
  {c : Control C} {r : RecordId} {edges : RecordId → List RecordId} {skip : RecordId → Prop}
  {path rs seen seen' : List RecordId} {below order : List (RecordId × List RecordId)}

/-- A walk visits a module: its dependencies first, then it has its turn. -/
private theorem Synchronous.visits_of
    (sync : Synchronous host limit ⟨s, memory, st, .visit r seen⟩)
    (follows : s.Follows edges skip (below ++ [(r, path)]) seen') (fresh : r ∉ seen)
    (deep : PostOrder edges skip (r :: path) (edges r) (r :: seen) below seen')
    (visitsAll : Synchronous host limit
        (visitDependencies ⟨s, memory, st, .visit r seen⟩ r (edges r) [] (r :: seen)) →
      VisitsAll host ⟨s, memory, st, .visit r seen⟩ r (edges r) (r :: seen) below seen' path) :
    ∃ s' memory' seen'', ∃ outcome : Outcome, RunsTo host ⟨s, memory, st, .visit r seen⟩
        ⟨s', memory', st, .visited (outcome.map fun _ => none) seen''⟩ ∧
      Walked s s' (below ++ [(r, path)]) path outcome ∧ (outcome = .ok () → seen'' = seen') := by
  have own : (r, path) ∈ below ++ [(r, path)] := List.mem_append_right _ List.mem_cons_self
  have idle : (s.record r).evaluation = none :=
    follows.idle r (deep.seen_subset List.mem_cons_self)
  have begins : step host ⟨s, memory, st, .visit r seen⟩ =
      visitDependencies ⟨s, memory, st, .visit r seen⟩ r (edges r) [] (r :: seen) := by
    simp [step, visit, fresh, follows.linked _ own, idle, follows.dependencies _ own]
  have begun := RunsTo.of_step begins (by simp)
  obtain ⟨s₁, memory₁, outcome, walked, runs⟩ := visitsAll (sync.of_runsTo begun)
  cases outcome with
  | error error =>
    obtain ⟨seen'', runs⟩ := runs
    exact ⟨s₁, memory₁, seen'', .error error, begun.trans runs, walked.cut, by simp⟩
  | ok =>
    obtain ⟨c, runs⟩ := runs
    have unlisted : r ∉ below.map Prod.fst := by
      intro mem
      obtain ⟨v, hv, same⟩ := List.mem_map.mp mem
      exact (deep.of_mem hv).1 (same ▸ List.mem_cons_self)
    have follows₁ : s₁.Follows edges skip [(r, path)] seen' :=
      (follows.mono (List.subset_append_right _ _) (List.Subset.refl _)).after walked
        fun v hv => List.mem_singleton.mp hv ▸ unlisted
    have mem : (r, path) ∈ [(r, path)] := List.mem_cons_self
    obtain ⟨s₂, memory₂, outcome, runs', walked'⟩ :=
      (sync.of_runsTo (begun.trans runs)).turns path (follows₁.known _ mem)
        (follows₁.alive _ mem) (follows₁.linked _ mem)
        (follows₁.idle r (deep.seen_subset List.mem_cons_self))
    exact ⟨s₂, memory₂, seen', outcome, (begun.trans runs).trans runs',
      walked.append walked' fun v hv => List.mem_singleton.mp hv ▸ unlisted, fun _ => rfl⟩

/-- A walk has visited a dependency, and goes on with the others. -/
private theorem VisitsAll.after {m m₁ : Machine C M} {p : RecordId} {rs₁ seen₁ outer : List RecordId}
    {order₁ : List (RecordId × List RecordId)}
    (runs : RunsTo host (m.visitDependencies p rs [] seen) (m₁.visitDependencies p rs₁ [] seen₁))
    (stack : m₁.stack = m.stack)
    (walk : ∀ s' outcome, Walked m₁.store s' order₁ outer outcome → Walked m.store s' order outer outcome)
    (h : VisitsAll host m₁ p rs₁ seen₁ order₁ seen' outer) :
    VisitsAll host m p rs seen order seen' outer := by
  obtain ⟨s', memory', outcome, walked, rest⟩ := h
  rw [stack] at rest
  refine ⟨s', memory', outcome, walk s' outcome walked, ?_⟩
  cases outcome with
  | ok => exact rest.imp fun _ => runs.trans
  | error => exact rest.imp fun _ => runs.trans

/-- A walk passes a dependency that it does not have to wait for. -/
private theorem runsTo_of_visited {p : RecordId} {seen₁ : List RecordId}
    (visits : RunsTo host ⟨s, memory, .visiting p rs [] :: st, .visit r seen⟩
      ⟨s, memory, .visiting p rs [] :: st, .visited (.ok none) seen₁⟩) :
    RunsTo host (visitDependencies ⟨s, memory, st, c⟩ p (r :: rs) [] seen)
      (visitDependencies ⟨s, memory, st, .visited (.ok none) seen₁⟩ p rs [] seen₁) :=
  visits.trans (.of_step rfl (by simp))

/-- The dependencies of a module are visited in their order. -/
private theorem Synchronous.visitsAll (h : PostOrder edges skip path rs seen order seen')
    {p : RecordId} {outer : List RecordId} (hp : path = p :: outer)
    (sync : Synchronous host limit (visitDependencies ⟨s, memory, st, c⟩ p rs [] seen))
    (follows : s.Follows edges skip order seen') (mem : p ∈ seen) (known : p < s.records.size)
    (linked : (s.record p).state = .linked) :
    VisitsAll host ⟨s, memory, st, c⟩ p rs seen order seen' outer := by
  induction h generalizing p outer s memory st c with
  | done =>
    exact ⟨s, memory, .ok (), .succeeds (Untouched.refl s).performs nofun, c, .refl⟩
  | @again path r rs seen order seen' old rest ih =>
    have idle : (s.record r).evaluation = none := follows.idle r (rest.seen_subset old)
    have looks : step host ⟨s, memory, .visiting p rs [] :: st, .visit r seen⟩ =
        ⟨s, memory, .visiting p rs [] :: st, .visited (.ok none) seen⟩ := by
      simp [step, visit, old, idle, Machine.next]
    have passes := runsTo_of_visited (c := c) (.of_step looks (by simp))
    exact (ih hp (sync.of_runsTo passes) follows mem known linked).after passes rfl fun _ _ => id
  | @skipped path r rs seen order seen' fresh skipped rest ih =>
    have looks : step host ⟨s, memory, .visiting p rs [] :: st, .visit r seen⟩ =
        ⟨s, memory, .visiting p rs [] :: st, .visited (.ok none) (r :: seen)⟩ := by
      simp [step, visit, fresh, follows.executed r skipped, Machine.next]
    have passes := runsTo_of_visited (c := c) (.of_step looks (by simp))
    exact (ih hp (sync.of_runsTo passes) follows (List.mem_cons_of_mem r mem) known linked).after
      passes rfl fun _ _ => id
  | @visit path r rs seen below seen₁ order seen' fresh taken deep rest ihd ihr =>
    have sub₁ : seen₁ ⊆ seen' := rest.seen_subset
    have follows₁ : s.Follows edges skip (below ++ [(r, path)]) seen₁ := follows.mono (by simp) sub₁
    have own : (r, path) ∈ below ++ [(r, path)] := List.mem_append_right _ List.mem_cons_self
    have first : PostOrder edges skip path [r] seen (below ++ [(r, path)]) seen₁ :=
      .visit fresh taken deep .done
    have visits : RunsTo host (visitDependencies ⟨s, memory, st, c⟩ p (r :: rs) [] seen)
        ⟨s, memory, .visiting p rs [] :: st, .visit r seen⟩ := .refl
    obtain ⟨s₁, memory₁, seen'', outcome, runs, walked, same⟩ :=
      Synchronous.visits_of (sync : Synchronous host limit
          ⟨s, memory, .visiting p rs [] :: st, .visit r seen⟩) follows₁ fresh deep
        fun sync => ihd rfl sync (follows₁.mono (List.subset_append_left _ _) (List.Subset.refl _))
          List.mem_cons_self (follows₁.known _ own) (follows₁.linked _ own)
    have alike : (s.record p).Alike (s₁.record p) := by
      refine walked.alike (fun listed => ?_) fun f between hf => first.not_mem_of_mem hf mem
      obtain ⟨v, hv, same⟩ := List.mem_map.mp listed
      exact (first.of_mem hv).1 (same ▸ mem)
    have known₁ : p < s₁.records.size := walked.same.1 ▸ known
    have linked₁ : (s₁.record p).state = .linked := alike.state.trans linked
    cases outcome with
    | ok =>
      obtain rfl := same rfl
      have passes := (visits.trans runs).trans (.of_step rfl (by simp))
      have apart : ∀ v ∈ order, v.1 ∉ (below ++ [(r, path)]).map Prod.fst := by
        intro v hv listed
        obtain ⟨w, hw, same⟩ := List.mem_map.mp listed
        exact (rest.of_mem hv).1 (same ▸ (first.of_mem hw).2.1)
      have follows' := (follows.mono (by simp) (List.Subset.refl _)).after walked apart
      refine (ihr hp (sync.of_runsTo passes) follows' (first.seen_subset mem) known₁ linked₁).after
        passes rfl fun s' outcome others => ?_
      have all := walked.append others apart
      rwa [List.append_assoc, List.singleton_append] at all
    | error error =>
      subst hp
      obtain ⟨performs, failed, kept⟩ := performs_fail error known₁ (.inl linked₁)
      have fails : step host ⟨s₁, memory₁, .visiting p rs [] :: st, .visited (.error error) seen''⟩ =
          ⟨(s₁.fail p error).1, memory₁, st, .visited (.error error) seen''⟩ := by
        simp only [step, pop, visitedDependency, kept]
      have climbs : Walked s (s₁.fail p error).1 ((below ++ [(r, p :: outer)]) ++ order) outer
          (.error error) := (walked.climb performs failed).cut
      rw [List.append_assoc, List.singleton_append] at climbs
      exact ⟨_, memory₁, .error error, climbs, seen'', (visits.trans runs).trans (.of_step fails (by simp))⟩

/-- A walk that starts at a module does what the depth-first post-order says. -/
theorem Synchronous.visits (h : PostOrder edges skip [] [r] [] order seen') (taken : ¬ skip r)
    (sync : Synchronous host limit ⟨s, memory, st, .visit r []⟩)
    (follows : s.Follows edges skip order seen') :
    ∃ s' memory' seen'', ∃ outcome : Outcome, RunsTo host ⟨s, memory, st, .visit r []⟩
        ⟨s', memory', st, .visited (outcome.map fun _ => none) seen''⟩ ∧
      Walked s s' order [] outcome := by
  cases h with
  | again old _ => cases old
  | skipped _ skipped _ => exact absurd skipped taken
  | visit fresh _ deep rest =>
    cases rest
    obtain ⟨s', memory', seen'', outcome, runs, walked, _⟩ := sync.visits_of follows fresh deep
      fun sync => sync.visitsAll deep rfl (follows.mono (List.subset_append_left _ _)
        (List.Subset.refl _)) List.mem_cons_self (follows.known (r, []) (by simp))
        (follows.linked (r, []) (by simp))
    exact ⟨s', memory', seen'', outcome, runs, walked⟩

end Visiting

end Machine

end ModuleSystem.Loader
