import ModuleSystem.Proofs.Loader.Registry
import ModuleSystem.Proofs.Loader.Rules

/-!
# What changes in a step

The rules of the machine are many, but each part of the store changes in few ways. This file says
for every part which these are, and what the machine is about when they happen: for the jobs and the
activities that advance them (`Machine.Advance`), for jobs that are new (`Machine.NewJob`), for the
records (`Machine.RecordChange`, `Machine.NewRecord`) and for the members of groups
(`Machine.Settling`). What holds of a part of the store in every state is derived from these.

## Main results

* `Machine.Rule.advance`, `Machine.Rule.newJob` : the jobs.
* `Machine.Rule.recordChange`, `Machine.Rule.newRecord` : the records.
* `Machine.Rule.settling` : the groups.
-/

namespace ModuleSystem.Loader

variable {C M : Type}

namespace Store

/-- Between two stores neither modules nor jobs have come any further. -/
structure Still (s s' : Store C) : Prop where
  record : s'.record = s.record
  size_records : s'.records.size = s.records.size
  state_job : ∀ j, (s'.job j).state = (s.job j).state
  size_jobs : s'.jobs.size = s.jobs.size
  size_groups : s'.groups.size = s.groups.size
  registry : s'.registry = s.registry
  retired : s'.retired = s.retired
  isAlive : s'.isAlive = s.isAlive
  milestones : s'.milestones = s.milestones

section Still

variable {s s₁ s₂ s₃ : Store C} {g : GroupId} {group : Group} {i : Nat} {outcome : Option Outcome}
  {l : Listener}

theorem Still.refl (s : Store C) : Still s s :=
  ⟨rfl, rfl, fun _ => rfl, rfl, rfl, rfl, rfl, rfl, rfl⟩

theorem Still.trans (h : Still s₁ s₂) (h' : Still s₂ s₃) : Still s₁ s₃ where
  record := h'.record.trans h.record
  size_records := h'.size_records.trans h.size_records
  state_job j := (h'.state_job j).trans (h.state_job j)
  size_jobs := h'.size_jobs.trans h.size_jobs
  size_groups := h'.size_groups.trans h.size_groups
  registry := h'.registry.trans h.registry
  retired := h'.retired.trans h.retired
  isAlive := h'.isAlive.trans h.isAlive
  milestones := h'.milestones.trans h.milestones

theorem still_setGroup (s : Store C) (g : GroupId) (group : Group) : Still s (s.setGroup g group) :=
  ⟨rfl, rfl, fun _ => rfl, rfl, size_groups_setGroup, rfl, rfl, rfl, rfl⟩

theorem still_settle (s : Store C) (g : GroupId) (i : Nat) (outcome : Option Outcome)
    (l : Listener) : Still s (s.settle g i outcome l) := by
  constructor <;> simp

theorem still_raise (s : Store C) (setters : List SetterId) (r : RecordId) :
    Still s (s.raise setters r) := by
  constructor <;> simp

theorem still_setQueue (s : Store C) (queue : List (SetterId × RecordId)) (b : Bool) :
    Still s (s.setQueue queue b) := by
  constructor <;> simp

theorem still_await (s : Store C) (signal : Option String) (l : Listener) :
    Still s (signal.elim s fun name => s.await name l) := by
  cases signal with
  | none => exact .refl s
  | some name =>
    simp only [Option.elim_some]
    constructor <;> simp

end Still

end Store

namespace Machine

open Store

/-! ### The ways that lead to rules -/

section Ways

variable {s s₁ : Store C} {st st' : List (Frame C)} {c c' : Control C} {r : RecordId}
  {dependencies rest : List Dependency} {children : List LinkNode} {jobs : List JobId}
  {group : GroupId} {seen : List RecordId} {setters : List SetterId}

theorem Joins.still (way : Joins s st c r dependencies group s₁ st') : Still s s₁ := by
  cases way with
  | starts l => exact still_setGroup ..
  | settles l => exact still_settle ..

theorem HandsOver.still (way : HandsOver s st c r dependencies rest s₁ st') : Still s s₁ := by
  cases way with
  | resumes => exact .refl s
  | starts way => exact way.still

theorem Gathers.still (way : Gathers s st c r children group seen s₁ st') : Still s s₁ := by
  cases way with
  | starts l => exact still_setGroup ..
  | waits l | ends l | fails l => exact still_settle ..

theorem Collects.still (way : Collects s st c r jobs group s₁ st') : Still s s₁ := by
  cases way with
  | starts l => exact still_setGroup ..
  | settles l => exact still_settle ..

theorem Propagates.still (way : Propagates s setters r st s₁ st' c') : Still s s₁ := by
  cases way with
  | queued h => exact still_raise ..
  | delivered h => exact (still_raise ..).trans (still_setQueue ..)

theorem Propagates.queue_eq (way : Propagates s setters r st s₁ st' c') :
    s₁.queue = s.queue ++ setters.map fun x => (x, r) := by
  cases way <;> rfl

end Ways

/-! ### Jobs -/

/-- The jobs that are being advanced, the innermost activity first. -/
def advanced : List (Frame C) → List JobId
  | [] => []
  | .advancing job :: st => job :: advanced st
  | _ :: st => advanced st

theorem advanced_append (above below : List (Frame C)) :
    advanced (above ++ below) = advanced above ++ advanced below := by
  induction above with
  | nil => rfl
  | cons frame above ih => cases frame <;> simp [advanced, ih]

theorem advanced_suffix {st st' : List (Frame C)} (h : st <:+ st') : advanced st <:+ advanced st' := by
  obtain ⟨above, rfl⟩ := h
  rw [advanced_append]
  exact List.suffix_append _ _

theorem mem_advanced {j : JobId} {st : List (Frame C)} : j ∈ advanced st ↔ .advancing j ∈ st := by
  induction st with
  | nil => simp [advanced]
  | cons frame st ih => cases frame <;> simp [advanced, ih]

/-- How the jobs that exist, and the activities that advance them, change in a step. -/
inductive Advance (m m' : Machine C M) : Prop
  | same (stack : advanced m'.stack = advanced m.stack)
      (state : ∀ j, j < m.store.jobs.size → (m'.store.job j).state = (m.store.job j).state)
  | takes {j work} (waits : (m.store.job j).state = .waiting work) (control : m.control = .poll j)
      (next : m'.control = .work work) (stack : m'.stack = .advancing j :: m.stack)
      (state : ∀ j', (m'.store.job j').state =
        if j' = j ∧ j < m.store.jobs.size then .running else (m.store.job j').state)
  | putsAside {j work} (control : m.control = .paused work) (next : m'.control = .polled none)
      (stack : m.stack = .advancing j :: m'.stack)
      (state : ∀ j', (m'.store.job j').state =
        if j' = j ∧ j < m.store.jobs.size then .waiting work else (m.store.job j').state)
  | ends {j outcome} (control : m.control = .ended outcome)
      (next : m'.control = .polled (some outcome)) (stack : m.stack = .advancing j :: m'.stack)
      (state : ∀ j', (m'.store.job j').state =
        if j' = j ∧ j < m.store.jobs.size then .finished outcome else (m.store.job j').state)
  | abandons {j} (control : m.control = .unwind) (next : m'.control = .unwind)
      (stack : m.stack = .advancing j :: m'.stack)
      (state : ∀ j', (m'.store.job j').state =
        if j' = j ∧ j < m.store.jobs.size then .abandoned else (m.store.job j').state)

section Jobs

variable {host : Host C M} {m m' : Machine C M} {s s₁ : Store C} {st st' : List (Frame C)}
  {c c' : Control C} {r : RecordId} {dependencies rest : List Dependency}
  {children : List LinkNode} {jobs : List JobId} {group : GroupId} {seen : List RecordId}
  {setters : List SetterId}

theorem Joins.advanced_eq (way : Joins s st c r dependencies group s₁ st') :
    advanced st' = advanced st := by
  cases way <;> rfl

theorem HandsOver.advanced_eq (way : HandsOver s st c r dependencies rest s₁ st') :
    advanced st' = advanced st := by
  cases way with
  | resumes => rfl
  | starts way => exact way.advanced_eq

theorem Gathers.advanced_eq (way : Gathers s st c r children group seen s₁ st') :
    advanced st' = advanced st := by
  cases way <;> rfl

theorem Collects.advanced_eq (way : Collects s st c r jobs group s₁ st') :
    advanced st' = advanced st := by
  cases way <;> rfl

theorem Turn.advanced_eq {rest : List RecordId} (way : Turn s st c r rest jobs seen st') :
    advanced st' = advanced st := by
  cases way <;> rfl

theorem Propagates.advanced_eq (way : Propagates s setters r st s₁ st' c') :
    advanced st' = advanced st := by
  cases way <;> rfl

theorem Move.advanced_eq (h : Move s st c st' c') : advanced st' = advanced st := by
  cases h
  case turnVisits way => exact way.advanced_eq
  case unwinds frame h h' h'' =>
    cases frame
    case advancing job => exact absurd rfl (h' job)
    all_goals rfl
  all_goals rfl

/-- The jobs that exist, and the activities that advance them, change in five ways. -/
theorem Rule.advance (h : Rule host m m') : Advance m m' := by
  cases h
  case move h => exact .same h.advanced_eq fun _ _ => rfl
  case pollWaiting s memory st job work l h _ =>
    exact .takes h rfl rfl rfl fun j => by simp [state_job_setJob]
  case putsAside => exact .putsAside rfl rfl rfl fun j => state_job_setJob
  case endsJob => exact .ends rfl rfl rfl fun j => state_job_finish
  case jobAborted => exact .abandons rfl rfl rfl fun j => state_job_setJob
  case hookWaits | bodyWaits => exact .same rfl fun j _ => (still_await ..).state_job j
  case bodyFails after _ => exact .same rfl fun j _ => by simp [after]
  case starts s memory st request url referrer _ =>
    have creates := creates_getOrCreate s url referrer
    refine .same rfl fun j hj => ?_
    exact (state_job_importRecord (Nat.lt_of_lt_of_le hj creates.size_jobs_le)).trans
      (creates.state_job_eq hj)
  case defines =>
    exact .same rfl fun j hj => by rw [state_job_define, if_neg (Nat.ne_of_lt hj)]
  case unresolved resolved =>
    have creates := creates_resolveDependencies resolved
    exact .same rfl fun j hj => by simpa using creates.state_job_eq hj
  case resolves resolved =>
    have creates := creates_resolveDependencies resolved
    exact .same rfl fun j hj => by simpa using creates.state_job_eq hj
  case publishes after way =>
    exact .same way.advanced_eq fun j _ => by simp [way.still.state_job, after]
  case joins way _ | joinWaits way _ _ | joinOrphaned way _ _ _ | joinFails way _ _ _ _ =>
    exact .same way.advanced_eq fun j _ => by simp [way.still.state_job]
  case handsOver way _ after =>
    refine .same (after.advanced_eq.trans way.advanced_eq) fun j _ => ?_
    rw [after.still.state_job, (idle_foldl idle_listen _ _).job, way.still.state_job]
  case handedOver way =>
    refine .same way.advanced_eq fun j _ => ?_
    rw [attach_same.1, (idle_foldl idle_listen _ _).job, way.still.state_job]
  case gathers way _ _ | gatherWaits way _ _ _ | gathered way _ _ | gatherOrphaned way _ _
      | gatherFails way _ _ =>
    exact .same way.advanced_eq fun j _ => by simp [way.still.state_job]
  case turnDeferred way _ =>
    exact .same way.advanced_eq fun j hj => by simp [state_job_newJob, Nat.ne_of_lt hj]
  case turnComes way =>
    exact .same way.advanced_eq fun j hj => by simp [state_job_newJob, Nat.ne_of_lt hj]
  case collects way _ _ | collectWaits way _ _ _ | collectOrphaned way _ | collectFails way _ _
      | collectTooLate way _ _ | collected way _ _ _ _ =>
    exact .same way.advanced_eq fun j _ => by simp [way.still.state_job]
  all_goals exact .same rfl fun j hj => by simp

end Jobs

/-! ### Records -/

/-- The job of a number has been made in a step and is to do some work. -/
structure Fresh (m m' : Machine C M) (j : JobId) (work : Work C) : Prop where
  new : m.store.jobs.size ≤ j
  known : j < m'.store.jobs.size
  waits : (m'.store.job j).state = .waiting work

/-- The turn of a module has come in a step: it is executing, unless it has failed, and its body has
been taken. -/
structure Taken (m m' : Machine C M) (r : RecordId) : Prop where
  body : (m'.store.record r).body = none
  record : r < m.store.records.size →
    m'.store.record r = { (m.store.record r).enter .executing with body := none }

/-- How a module comes to fail with an error other than by its body. The error is one of its own, or
one that it has from a dependency. -/
inductive Faults (m m' : Machine C M) (r : RecordId) (error : LoaderError) : Prop
  | hook {code reason} (stack : m.stack = .hook r :: m'.stack) (control : m.control = .host code)
      (own : error = .instantiation (m.store.record r).url (m.store.record r).firstReferrer reason)
  | unresolved {specifier reason} (stack : m.stack = .linking r :: m'.stack)
      (control : m.control = .polled (some (.ok ())))
      (own : error = .resolution specifier (some (m.store.record r).url) reason)
  | joined {dependencies group s}
      (way : Joins m.store m.stack m.control r dependencies group s m'.stack)
      (done : (s.group group).isOver = true) (failure : (s.group group).failure? = some error)
  | gathered {children group seen s}
      (way : Gathers m.store m.stack m.control r children group seen s m'.stack)
      (failure : (s.group group).failure? = some error)
  | visited {rest jobs seen} (stack : m.stack = .visiting r rest jobs :: m'.stack)
      (control : m.control = .visited (.error error) seen)
  | collected {jobs group s error'}
      (way : Collects m.store m.stack m.control r jobs group s m'.stack)
      (next : m'.control = .ended (.error error')) (failure : (s.group group).failure? = some error)

/-- How a record that exists changes in a step. -/
inductive RecordChange (m m' : Machine C M) (r : RecordId) : Prop
  | same (record : (m.store.record r).SameProgress (m'.store.record r))
  /-- An import of the module has been started. -/
  | imported {request j} (control : m.control = .serve request)
      (next : m'.control = .reply (.started (.waiting r j)))
      (job : Fresh m m' j (.linkGraph r (.start r) []))
      (fresh : (m.store.record r).topLevel = none)
      (sound : (m.store.record r).state.error? = none)
      (record : m'.store.record r = { m.store.record r with topLevel := some j })
  /-- The hook of the module has been called. -/
  | hooked (control : m.control = .work (.instantiate r)) (alive : m.store.isAlive r = true)
      (sound : (m.store.record r).state.error? = none) (stack : m'.stack = .hook r :: m.stack)
      (record : m'.store.record r = (m.store.record r).enter .instantiating)
  /-- The hook has registered the module. -/
  | adopted {code specifiers setters body} (stack : m.stack = .hook r :: m'.stack)
      (control : m.control = .host code) (next : m'.control = .ended (.ok ()))
      (alive : m.store.isAlive r = true) (sound : (m.store.record r).state.error? = none)
      (record : m'.store.record r =
        { m.store.record r with specifiers, pendingSetters := setters, body })
  /-- The module has failed, if it can. -/
  | failed {error x} (cause : Faults m m' r error) (same : (m.store.record r).SameProgress x)
      (record : m'.store.record r = x.poison error)
  /-- The module has been linked. -/
  | attached {dependencies rest s x}
      (way : HandsOver m.store m.stack m.control r dependencies rest s m'.stack)
      (next : m'.control = .ended (.ok ())) (listened : (m.store.record r).SameProgress x)
      (record : m'.store.record r = Record.enter { x with
        dependencies := dependencies.map Dependency.module
        dependencySetters := dependencies.map Dependency.setter } .linked)
  /-- The module has to wait for jobs before it can be executed. -/
  | deferred {jobs seen} (way : Turn m.store m.stack m.control r [] jobs seen m'.stack)
      (next : m'.control = .visited (.ok (some m.store.jobs.size)) seen)
      (job : Fresh m m' m.store.jobs.size (.executeAfter r jobs m.store.groups.size))
      (record : m'.store.record r =
        { m.store.record r with evaluation := some m.store.jobs.size })
  /-- The turn of the module has come in a walk that executes a graph. -/
  | comes {seen st} (way : Turn m.store m.stack m.control r [] [] seen st)
      (stack : m'.stack = .executing r m.store.jobs.size seen :: st)
      (next : m'.control = .poll m.store.jobs.size)
      (job : Fresh m m' m.store.jobs.size (.runBody r (m.store.record r).body))
      (record : m'.store.record r = { (m.store.record r).enter .executing with body := none })
  /-- The turn of the module has come after the jobs that it had to wait for. -/
  | collected {jobs group s}
      (way : Collects m.store m.stack m.control r jobs group s m'.stack)
      (next : m'.control = .work (.runBody r (m.store.record r).body))
      (clean : (s.group group).failure? = none) (done : (s.group group).isOver = true)
      (alive : m.store.isAlive r = true) (sound : (m.store.record r).state.error? = none)
      (record : m'.store.record r = { (m.store.record r).enter .executing with body := none })
  /-- The first attempt at the job of the module has to wait. -/
  | suspended {job seen} (stack : m.stack = .executing r job seen :: m'.stack)
      (control : m.control = .polled none) (next : m'.control = .visited (.ok (some job)) seen)
      (record : m'.store.record r = { m.store.record r with evaluation := some job })
  /-- The body of the module has ended. -/
  | ended {code} (stack : m.stack = .body r :: m'.stack) (control : m.control = .host code)
      (next : m'.control = .ended (.ok ())) (alive : m.store.isAlive r = true)
      (milestones : m'.store.milestones = .bodyEnded r true :: m.store.milestones)
      (record : m'.store.record r =
        Record.enter { m.store.record r with evaluation := none } .executed)
  /-- The module has been found to have no body that is left to start. -/
  | bodyless (control : m.control = .work (.runBody r none)) (stack : m'.stack = m.stack)
      (next : m'.control = .ended (.ok ())) (alive : m.store.isAlive r = true)
      (record : m'.store.record r =
        Record.enter { m.store.record r with evaluation := none } .executed)
  /-- The body of the module has failed. -/
  | bodyFailed {code reason error} (stack : m.stack = .body r :: m'.stack)
      (control : m.control = .host code) (next : m'.control = .ended (.error error))
      (record : m'.store.record r = Record.poison { m.store.record r with evaluation := none }
        (.execution (m.store.record r).url (m.store.record r).firstReferrer reason))

section Records

variable {host : Host C M} {m m' : Machine C M} {r : RecordId}

theorem Taken.state (h : Taken m m' r) (hr : r < m.store.records.size) :
    (m'.store.record r).state = .executing ∨ ∃ error, (m'.store.record r).state = .failed error := by
  rw [h.record hr]
  exact Record.state_enter_cases.imp_right fun ⟨error, _, state⟩ => ⟨error, state⟩

/-- The records when one may have failed. -/
private theorem RecordChange.of_fail {s : Store C} {module : RecordId} {error : LoaderError}
    (same : (m.store.record r).SameProgress (s.record r)) (hr : r < s.records.size)
    (h : m'.store = (s.fail module error).1) (cause : Faults m m' module error) :
    RecordChange m m' r := by
  by_cases hrm : r = module
  · subst hrm
    exact .failed cause same (by rw [h, record_fail_self hr])
  · refine .same ?_
    rw [h, record_fail_of_ne hrm]
    exact same

/-- The records when nothing has happened to them. -/
private theorem RecordChange.of_eq (h : m'.store.record = m.store.record) :
    RecordChange m m' r := by
  refine .same ?_
  rw [h]
  exact .refl _

/-- The records after exports have been made. -/
private theorem sameProgress_exportAll (s : Store C) (module r : RecordId)
    (entries : List (String × Value)) : (s.record r).SameProgress
      ((s.update module fun _ => ((s.record module).exportAll entries).1).record r) := by
  by_cases hrm : r = module
  · subst hrm
    by_cases hr : r < s.records.size
    · rw [record_update_self hr]
      exact ⟨rfl, rfl, rfl, rfl, rfl, rfl, rfl, rfl⟩
    · have hr' : s.records.size ≤ r := Nat.le_of_not_lt hr
      rw [record_of_size_le hr', record_of_size_le (by simpa using hr')]
      exact .refl _
  · rw [record_update_of_ne hrm]
    exact .refl _

/-- The records after dependencies have been resolved. -/
private theorem sameProgress_resolveDependencies {s s' : Store C} {url : Url}
    {specifiers : List (String × Option SetterId)} {module : RecordId}
    {result : Except LoaderError (List Dependency)} (hr : r < s.records.size)
    (h : resolveDependencies url (s.update module fun x => { x with pendingSetters := [] })
      specifiers = (s', result)) :
    (s.record r).SameProgress (s'.record r) ∧ r < s'.records.size := by
  have creates := creates_resolveDependencies h
  rw [creates.record_eq (by simpa using hr)]
  refine ⟨sameProgress_update fun x => ⟨rfl, rfl, rfl, rfl, rfl, rfl, rfl, rfl⟩, ?_⟩
  exact Nat.lt_of_lt_of_le (by simpa using hr) creates.size_records_le

/-- A record that exists changes in few ways. -/
theorem Rule.recordChange (h : Rule host m m') (hr : r < m.store.records.size) :
    RecordChange m m' r := by
  cases h
  case move => exact .same (.refl _)
  case hookWaits | bodyWaits => exact .of_eq (still_await ..).record
  case hookFails own => exact .of_fail (.refl _) hr rfl (.hook rfl rfl own)
  case hookEnds s _ _ _ module _ _ registration _ alive _ sound =>
    by_cases hrm : r = module
    · subst hrm
      obtain ⟨setters, record⟩ := record_adopt_self hr
      exact .adopted rfl rfl rfl alive sound record
    · exact .same (by rw [record_adopt_of_ne hrm]; exact .refl _)
  case bodyEnds s _ _ _ module _ _ _ alive =>
    by_cases hrm : r = module
    · subst hrm
      refine .ended rfl rfl rfl alive (by simp [Event.isMilestone]) ?_
      rw [record_enter_self (by simpa using hr), record_setEvaluation_self (by simpa using hr)]
      rfl
    · refine .same ?_
      rw [record_enter_of_ne hrm, record_setEvaluation_of_ne hrm]
      exact .refl _
  case bodyFails s _ _ _ module _ reason s' error _ alive after own =>
    subst after
    by_cases hrm : r = module
    · subst hrm own
      have record : ((((s.note (.bodyEnded r false)).setEvaluation r none).fail r
          (.execution (s.record r).url (s.record r).firstReferrer reason)).1).record r =
            Record.poison { s.record r with evaluation := none }
              (.execution (s.record r).url (s.record r).firstReferrer reason) := by
        rw [record_fail_self (by simpa using hr), record_setEvaluation_self (by simpa using hr)]
        rfl
      exact .bodyFailed rfl rfl rfl record
    · refine .same ?_
      rw [record_fail_of_ne hrm, record_setEvaluation_of_ne hrm]
      exact .refl _
  case publishesSame => exact .same (sameProgress_exportAll ..)
  case publishes after way =>
    refine .same ?_
    rw [way.still.record, after]
    exact sameProgress_exportAll ..
  case starts s _ _ request url referrer _ =>
    have creates := creates_getOrCreate s url referrer
    have same := creates.record_eq hr
    rcases importRecord_cases (s.getOrCreate url referrer).1 (s.getOrCreate url referrer).2 with
      ⟨_, _, h⟩ | ⟨_, h⟩ | ⟨_, _, h⟩ | ⟨fresh, _, sound, h⟩
    · exact .same (by rw [h, same]; exact .refl _)
    · exact .same (by rw [h, same]; exact .refl _)
    · exact .same (by rw [h, same]; exact .refl _)
    · by_cases hrm : r = (s.getOrCreate url referrer).2
      · rw [← hrm, same] at fresh sound
        rw [← hrm] at h
        refine .imported rfl ?_ ⟨creates.size_jobs_le, ?_, ?_⟩ fresh sound ?_
        · rw [← hrm, h]
        · rw [← hrm, h, startImport_same.2.1]
          exact Nat.lt_succ_self _
        · rw [← hrm, h, state_job_startImport, if_pos rfl]
        · rw [← hrm, h, record_startImport_self (Nat.lt_of_lt_of_le hr creates.size_records_le),
            same]
      · refine .same ?_
        rw [h, record_startImport_of_ne hrm, same]
        exact .refl _
  case defines => exact .same (record_define_of_lt hr)
  case deletes s _ _ url => exact .same (record_delete s url r)
  case callsHook s _ _ module alive sound =>
    by_cases hrm : r = module
    · subst hrm
      exact .hooked rfl alive sound rfl (record_enter_self hr)
    · exact .same (by rw [note_same.1, record_enter_of_ne hrm]; exact .refl _)
  case unresolved resolved =>
    obtain ⟨same, hr'⟩ := sameProgress_resolveDependencies hr resolved
    obtain ⟨_, _, own⟩ := error_of_resolveDependencies resolved
    exact .of_fail same hr' rfl (.unresolved rfl rfl own)
  case resolves resolved => exact .same (sameProgress_resolveDependencies hr resolved).1
  case joins way _ => exact .of_eq way.still.record
  case joinWaits way _ _ | joinOrphaned way _ _ _ => exact .of_eq way.still.record
  case joinFails way _ done _ failure =>
    refine .of_fail ?_ (by rw [way.still.size_records]; exact hr) rfl (.joined way done failure)
    rw [way.still.record]
    exact .refl _
  case handsOver way _ after =>
    refine .same ?_
    rw [after.still.record, ← way.still.record]
    exact (idle_foldl idle_listen _ _).record r
  case handedOver s _ _ _ module dependencies rest s₁ _ _ way =>
    have idle := idle_foldl idle_listen rest s₁
    have same := idle.record r
    rw [way.still.record] at same
    by_cases hrm : r = module
    · subst hrm
      refine .attached way rfl same (record_attach_self ?_)
      rw [idle.size_records, way.still.size_records]
      exact hr
    · exact .same (by rw [record_attach_of_ne hrm]; exact same)
  case gathers way _ _ => exact .of_eq way.still.record
  case gatherWaits way _ _ _ | gathered way _ _ | gatherOrphaned way _ _ =>
    exact .of_eq way.still.record
  case gatherFails way _ failure =>
    refine .of_fail ?_ (by rw [way.still.size_records]; exact hr) rfl (.gathered way failure)
    rw [way.still.record]
    exact .refl _
  case turnDeferred module jobs seen _ way _ =>
    by_cases hrm : r = module
    · subst hrm
      refine .deferred way rfl ⟨Nat.le_refl _, ?_, ?_⟩ (record_setEvaluation_self hr)
      · simp
      · simp [state_job_newJob]
    · refine .same ?_
      rw [record_setEvaluation_of_ne hrm]
      exact .refl _
  case turnComes module seen st' way =>
    by_cases hrm : r = module
    · subst hrm
      exact .comes way rfl rfl ⟨Nat.le_refl _, by simp, by simp [state_job_newJob]⟩
        (record_takeTurn_self hr)
    · refine .same ?_
      rw [newJob_same.1, record_takeTurn_of_ne hrm]
      exact .refl _
  case attemptWaits s _ _ module job seen =>
    by_cases hrm : r = module
    · subst hrm
      exact .suspended rfl rfl rfl (record_setEvaluation_self hr)
    · refine .same ?_
      rw [record_setEvaluation_of_ne hrm]
      exact .refl _
  case visitFails => exact .of_fail (.refl _) hr rfl (.visited rfl rfl)
  case collects way _ _ => exact .of_eq way.still.record
  case collectWaits way _ _ _ | collectOrphaned way _ | collectTooLate way _ _ =>
    exact .of_eq way.still.record
  case collectFails way _ failure =>
    refine .of_fail ?_ (by rw [way.still.size_records]; exact hr) rfl (.collected way rfl failure)
    rw [way.still.record]
    exact .refl _
  case collected s _ _ _ module _ _ s₁ _ way clean done alive sound =>
    by_cases hrm : r = module
    · subst hrm
      rw [way.still.isAlive] at alive
      rw [way.still.record] at sound
      refine .collected way ?_ clean done alive sound ?_
      · rw [way.still.record]
      · rw [record_takeTurn_self (by rw [way.still.size_records]; exact hr), way.still.record]
    · refine .same ?_
      rw [record_takeTurn_of_ne hrm, way.still.record]
      exact .refl _
  case bodyless s _ _ module alive =>
    by_cases hrm : r = module
    · subst hrm
      refine .bodyless rfl rfl rfl alive ?_
      rw [record_enter_self (by simpa using hr), record_setEvaluation_self hr]
    · refine .same ?_
      rw [record_enter_of_ne hrm, record_setEvaluation_of_ne hrm]
      exact .refl _
  all_goals exact .of_eq (by simp)

/-! The URL and the first jobs of a record stay as they are. -/

theorem RecordChange.url_eq (h : RecordChange m m' r) :
    (m'.store.record r).url = (m.store.record r).url := by
  cases h with
  | same record => exact record.url
  | failed _ same record => simp [record, same.url]
  | attached _ _ listened record => simp [record, listened.url]
  | imported _ _ _ _ _ record | hooked _ _ _ _ record | adopted _ _ _ _ _ record
      | deferred _ _ _ record | comes _ _ _ _ record | collected _ _ _ _ _ _ record
      | suspended _ _ _ record | ended _ _ _ _ _ record | bodyless _ _ _ _ record
      | bodyFailed _ _ _ record => simp [record]

theorem RecordChange.instantiation_eq (h : RecordChange m m' r) :
    (m'.store.record r).instantiation = (m.store.record r).instantiation := by
  cases h with
  | same record => exact record.instantiation
  | failed _ same record => simp [record, same.instantiation]
  | attached _ _ listened record => simp [record, listened.instantiation]
  | imported _ _ _ _ _ record | hooked _ _ _ _ record | adopted _ _ _ _ _ record
      | deferred _ _ _ record | comes _ _ _ _ record | collected _ _ _ _ _ _ record
      | suspended _ _ _ record | ended _ _ _ _ _ record | bodyless _ _ _ _ record
      | bodyFailed _ _ _ record => simp [record]

theorem RecordChange.linking_eq (h : RecordChange m m' r) :
    (m'.store.record r).linking = (m.store.record r).linking := by
  cases h with
  | same record => exact record.linking
  | failed _ same record => simp [record, same.linking]
  | attached _ _ listened record => simp [record, listened.linking]
  | imported _ _ _ _ _ record | hooked _ _ _ _ record | adopted _ _ _ _ _ record
      | deferred _ _ _ record | comes _ _ _ _ record | collected _ _ _ _ _ _ record
      | suspended _ _ _ record | ended _ _ _ _ _ record | bodyless _ _ _ _ record
      | bodyFailed _ _ _ record => simp [record]

/-- Once there is a job for the imports of a module, it stays. -/
theorem RecordChange.topLevel_eq {j : JobId} (h : RecordChange m m' r)
    (hj : (m.store.record r).topLevel = some j) : (m'.store.record r).topLevel = some j := by
  cases h with
  | same record => exact record.topLevel.trans hj
  | failed _ same record => simp [record, same.topLevel, hj]
  | attached _ _ listened record => simp [record, listened.topLevel, hj]
  | imported _ _ _ fresh _ _ => exact nomatch fresh.symm.trans hj
  | hooked _ _ _ _ record | adopted _ _ _ _ _ record | deferred _ _ _ record | comes _ _ _ _ record
      | collected _ _ _ _ _ _ record | suspended _ _ _ record | ended _ _ _ _ _ record
      | bodyless _ _ _ _ record | bodyFailed _ _ _ record => simp [record, hj]

end Records

/-- How the state of a module that exists changes in a step. A failed one stays failed. -/
inductive Transition (m m' : Machine C M) (r : RecordId) : Prop
  | stays (state : (m'.store.record r).state = (m.store.record r).state)
  | fails {error} (unexecuted : (m.store.record r).state ≠ .executed)
      (sound : (m.store.record r).state.error? = none)
      (state : (m'.store.record r).state = .failed error)
  | hooked (control : m.control = .work (.instantiate r))
      (stack : m'.stack = .hook r :: m.stack) (sound : (m.store.record r).state.error? = none)
      (state : (m'.store.record r).state = .instantiating)
  | attached {dependencies rest s}
      (way : HandsOver m.store m.stack m.control r dependencies rest s m'.stack)
      (next : m'.control = .ended (.ok ())) (sound : (m.store.record r).state.error? = none)
      (state : (m'.store.record r).state = .linked)
  | comes {seen st} (way : Turn m.store m.stack m.control r [] [] seen st)
      (stack : m'.stack = .executing r m.store.jobs.size seen :: st)
      (next : m'.control = .poll m.store.jobs.size)
      (body : (m'.store.record r).body = none)
      (sound : (m.store.record r).state.error? = none)
      (state : (m'.store.record r).state = .executing)
  | collected {jobs group s}
      (way : Collects m.store m.stack m.control r jobs group s m'.stack)
      (next : m'.control = .work (.runBody r (m.store.record r).body))
      (body : (m'.store.record r).body = none)
      (sound : (m.store.record r).state.error? = none)
      (state : (m'.store.record r).state = .executing)
  | ended {code} (stack : m.stack = .body r :: m'.stack) (control : m.control = .host code)
      (next : m'.control = .ended (.ok ()))
      (milestones : m'.store.milestones = .bodyEnded r true :: m.store.milestones)
      (sound : (m.store.record r).state.error? = none)
      (state : (m'.store.record r).state = .executed)
  | bodyless (control : m.control = .work (.runBody r none)) (stack : m'.stack = m.stack)
      (next : m'.control = .ended (.ok ())) (sound : (m.store.record r).state.error? = none)
      (state : (m'.store.record r).state = .executed)

section Transitions

variable {m m' : Machine C M} {r : RecordId}

theorem RecordChange.transition (h : RecordChange m m' r) : Transition m m' r := by
  have enters : ∀ {next : ModuleState},
      (m'.store.record r).state = ((m.store.record r).enter next).state →
      ((m.store.record r).state.error? = none → (m'.store.record r).state = next →
        Transition m m' r) → Transition m m' r := by
    intro next state entered
    rw [Record.state_enter] at state
    split_ifs at state with sound
    · exact entered sound state
    · exact .stays state
  have poisons : ∀ {error : LoaderError},
      (m'.store.record r).state = ((m.store.record r).poison error).state →
      Transition m m' r := by
    intro error state
    rw [Record.state_poison] at state
    split_ifs at state with settled
    · exact .stays state
    · obtain ⟨unexecuted, sound⟩ := not_or.mp settled
      exact .fails unexecuted (not_not.mp sound) state
  cases h with
  | same record => exact .stays record.state
  | imported _ _ _ _ _ record | adopted _ _ _ _ _ record | deferred _ _ _ record
      | suspended _ _ _ record => exact .stays (by rw [record])
  | hooked control _ _ stack record => exact enters (by rw [record]) (.hooked control stack)
  | failed _ same record =>
    refine poisons (by rw [record, Record.state_poison, Record.state_poison, same.state])
  | bodyFailed _ _ _ record =>
    refine poisons (by rw [record, Record.state_poison, Record.state_poison])
  | attached way next listened record =>
    refine enters ?_ (.attached way next)
    rw [record, Record.state_enter, Record.state_enter, listened.state]
  | comes way stack next _ record =>
    exact enters (by rw [record]) (.comes way stack next (by rw [record]))
  | collected way next _ _ _ _ record =>
    exact enters (by rw [record]) (.collected way next (by rw [record]))
  | ended stack control next _ milestones record =>
    refine enters ?_ (.ended stack control next milestones)
    rw [record, Record.state_enter, Record.state_enter]
  | bodyless control stack next _ record =>
    refine enters ?_ (.bodyless control stack next)
    rw [record, Record.state_enter, Record.state_enter]

/-- A failed module stays failed, with the same error. -/
theorem Transition.failed {error : LoaderError} (h : Transition m m' r)
    (failed : (m.store.record r).state = .failed error) :
    (m'.store.record r).state = .failed error := by
  cases h with
  | stays state => rw [state, failed]
  | fails _ sound _ | hooked _ _ sound _ | attached _ _ sound _ | comes _ _ _ _ sound _
      | collected _ _ _ sound _ | ended _ _ _ _ sound _ | bodyless _ _ _ sound _ =>
    rw [failed] at sound
    exact nomatch sound

end Transitions

/-! ### The registry and the milestones -/

/-- What a step adds to the milestones, and what it does to the registry. -/
inductive News (m m' : Machine C M) : Prop
  | none (milestones : m'.store.milestones = m.store.milestones)
      (registry : m'.store.registry = m.store.registry)
      (size : m'.store.records.size = m.store.records.size)
  | hookCalled {r} (control : m.control = .work (.instantiate r))
      (stack : m'.stack = .hook r :: m.stack) (alive : m.store.isAlive r = true)
      (milestones : m'.store.milestones = .hookCalled r :: m.store.milestones)
      (registry : m'.store.registry = m.store.registry)
      (size : m'.store.records.size = m.store.records.size)
  | bodyStarted {r code} (control : m.control = .work (.runBody r (some code)))
      (stack : m'.stack = .body r :: m.stack) (next : m'.control = .host code)
      (milestones : m'.store.milestones = .bodyStarted r :: m.store.milestones)
      (registry : m'.store.registry = m.store.registry)
      (size : m'.store.records.size = m.store.records.size)
  | bodyEnded {r code succeeded} (stack : m.stack = .body r :: m'.stack)
      (control : m.control = .host code)
      (milestones : m'.store.milestones = .bodyEnded r succeeded :: m.store.milestones)
      (registry : m'.store.registry = m.store.registry)
      (size : m'.store.records.size = m.store.records.size)
  | changed {r entries} (control : m.control = .serve (.publish r entries))
      (told : ∀ x ∈ (m.store.record r).importerSetters, (x, r) ∈ m'.store.queue)
      (milestones : m'.store.milestones = .changed r :: m.store.milestones)
      (registry : m'.store.registry = m.store.registry)
      (size : m'.store.records.size = m.store.records.size)
  | called {x r} (queue : m.store.queue = (x, r) :: m'.store.queue)
      (history : m'.store.history = .called x r :: m.store.history)
      (milestones : m'.store.milestones = .called x r :: m.store.milestones)
      (registry : m'.store.registry = m.store.registry)
      (size : m'.store.records.size = m.store.records.size)
  /-- Records have been made. -/
  | made {s₀ s} (idle : Idle m.store s₀) (creates : Creates s₀ s)
      (milestones : m'.store.milestones = s.milestones)
      (registry : m'.store.registry = s.registry)
      (size : m'.store.records.size = s.records.size)
      (url : ∀ r, (m'.store.record r).url = (s.record r).url)
  | deleted {url} (control : m.control = .serve (.delete url))
      (store : m'.store = (m.store.delete url).1)
  | defined {url entries} (control : m.control = .serve (.define url entries))
      (next : m'.control = .reply (.defined m.store.records.size))
      (store : m'.store = (m.store.define url entries).1)

section Milestones

variable {host : Host C M} {m m' : Machine C M}

private theorem News.of_still (still : Still m.store m'.store) : News m m' :=
  .none still.milestones still.registry still.size_records

/-- In a step at most one milestone is reached, but for records that are made. -/
theorem Rule.news (h : Rule host m m') : News m m' := by
  cases h
  case move => exact .none rfl rfl rfl
  case hookWaits | bodyWaits => exact .of_still (still_await ..)
  case bodyOrphaned => exact .bodyEnded rfl rfl (milestones_note.trans (if_pos rfl)) rfl rfl
  case bodyEnds s _ _ _ module _ _ _ _ =>
    have milestones : (((s.note (.bodyEnded module true)).setEvaluation module none).enter module
        .executed).milestones = .bodyEnded module true :: s.milestones := by
      simp [Event.isMilestone]
    exact .bodyEnded rfl rfl milestones (by simp) (by simp)
  case bodyFails s _ _ _ module _ _ _ error _ _ after _ =>
    subst after
    have milestones : (((s.note (.bodyEnded module false)).setEvaluation module none).fail module
        error).1.milestones = .bodyEnded module false :: s.milestones := by
      simp [Event.isMilestone]
    exact .bodyEnded rfl rfl milestones (by simp) (by simp)
  case publishes after way =>
    refine .changed rfl (fun x hx => ?_) ?_ ?_ ?_
    · rw [way.queue_eq]
      exact List.mem_append_right _ (List.mem_map_of_mem hx)
    · simp [way.still.milestones, after, Event.isMilestone]
    · simp [way.still.registry, after]
    · simp [way.still.size_records, after]
  case starts s _ _ _ url referrer _ =>
    exact .made (.refl s) (creates_getOrCreate s url referrer) (by simp) (by simp) (by simp)
      fun r => url_importRecord
  case defines => exact .defined rfl (by simp) rfl
  case deletes => exact .deleted rfl rfl
  case callsHook alive _ =>
    exact .hookCalled rfl rfl alive (by simp [Event.isMilestone]) (by simp) (by simp)
  case unresolved resolved =>
    refine .made ?_ (creates_resolveDependencies resolved) (by simp) (by simp) (by simp)
      fun r => by simp
    exact idle_update fun x => ⟨rfl, rfl, rfl, rfl, rfl, rfl, rfl, rfl⟩
  case resolves resolved =>
    refine .made ?_ (creates_resolveDependencies resolved) (by simp) (by simp) (by simp)
      fun r => by simp
    exact idle_update fun x => ⟨rfl, rfl, rfl, rfl, rfl, rfl, rfl, rfl⟩
  case joins way _ => exact .of_still (way.still.trans (still_setGroup ..))
  case joinWaits way _ _ | joinOrphaned way _ _ _ => exact .of_still way.still
  case joinFails way _ _ _ _ =>
    exact .none (by simp [way.still.milestones]) (by simp [way.still.registry])
      (by simp [way.still.size_records])
  case handsOver way _ after =>
    have idle := fun xs s => idle_foldl (C := C) idle_listen xs s
    refine .none ?_ ?_ ?_
    · rw [after.still.milestones, (idle _ _).milestones, way.still.milestones]
    · rw [after.still.registry, (idle _ _).registry, way.still.registry]
    · rw [after.still.size_records, (idle _ _).size_records, way.still.size_records]
  case handedOver way =>
    have idle := fun xs s => idle_foldl (C := C) idle_listen xs s
    refine .none ?_ ?_ ?_
    · rw [milestones_attach, (idle _ _).milestones, way.still.milestones]
    · rw [attach_same.2.2.2.2.1, (idle _ _).registry, way.still.registry]
    · rw [size_records_attach, (idle _ _).size_records, way.still.size_records]
  case gathers way _ _ => exact .of_still (way.still.trans (still_setGroup ..))
  case gatherWaits way _ _ _ | gathered way _ _ | gatherOrphaned way _ _ => exact .of_still way.still
  case gatherFails way _ _ =>
    exact .none (by simp [way.still.milestones]) (by simp [way.still.registry])
      (by simp [way.still.size_records])
  case collects way _ _ => exact .of_still (way.still.trans (still_setGroup ..))
  case collectWaits way _ _ _ | collectOrphaned way _ | collectTooLate way _ _ =>
    exact .of_still way.still
  case collectFails way _ _ | collected way _ _ _ _ =>
    exact .none (by simp [way.still.milestones]) (by simp [way.still.registry])
      (by simp [way.still.size_records])
  case bodyStarts => exact .bodyStarted rfl rfl rfl (by simp [Event.isMilestone]) rfl rfl
  case calls h _ _ => exact .called h rfl (by simp [Event.isMilestone]) (by simp) (by simp)
  all_goals exact .none (by simp [Event.isMilestone]) (by simp) (by simp)

end Milestones

/-! ### New jobs and records -/

/-- The ways in which a step makes jobs and records. -/
inductive Makes (m m' : Machine C M) : Prop
  | none (records : m'.store.records.size = m.store.records.size)
      (jobs : m'.store.jobs.size = m.store.jobs.size)
  /-- The job of an import. -/
  | graph {s r url} (creates : Creates m.store s)
      (known : m.store.lookup url = some r ∨ r < s.records.size)
      (store : m'.store = s.startImport r)
      (next : m'.control = .reply (.started (.waiting r s.jobs.size)))
  /-- Records that are to be imported, or are dependencies. -/
  | records {s₀ s} (idle : Idle m.store s₀) (creates : Creates s₀ s)
      (record : ∀ r, m.store.records.size ≤ r → m'.store.record r = s.record r)
      (records : m'.store.records.size = s.records.size)
      (state : ∀ j, (m'.store.job j).state = (s.job j).state)
      (jobs : m'.store.jobs.size = s.jobs.size)
  | definition {url entries} (store : m'.store = (m.store.define url entries).1)
      (next : m'.control = .reply (.defined m.store.records.size))
  | deferred {r jobs seen} (way : Turn m.store m.stack m.control r [] jobs seen m'.stack)
      (next : m'.control = .visited (.ok (some m.store.jobs.size)) seen)
      (state : (m'.store.job m.store.jobs.size).state =
        .waiting (.executeAfter r jobs m.store.groups.size))
      (groups : m'.store.groups.size = m.store.groups.size + 1)
      (record : r < m.store.records.size → m'.store.record r =
        { m.store.record r with evaluation := some m.store.jobs.size })
      (records : m'.store.records.size = m.store.records.size)
      (jobs : m'.store.jobs.size = m.store.jobs.size + 1)
  | turn {r seen st} (way : Turn m.store m.stack m.control r [] [] seen st)
      (stack : m'.stack = .executing r m.store.jobs.size seen :: st)
      (next : m'.control = .poll m.store.jobs.size)
      (state : (m'.store.job m.store.jobs.size).state =
        .waiting (.runBody r (m.store.record r).body))
      (records : m'.store.records.size = m.store.records.size)
      (jobs : m'.store.jobs.size = m.store.jobs.size + 1) (taken : Taken m m' r)

section Makes

variable {host : Host C M} {m m' : Machine C M}

private theorem Makes.of_still (still : Still m.store m'.store) : Makes m m' :=
  .none still.size_records still.size_jobs

/-- A module whose dependencies cannot be resolved is there. -/
private theorem lt_of_unresolved {s s₀ s' : Store C} {url : Url} {module : RecordId}
    {error : LoaderError} (h : resolveDependencies url s₀
      ((s.record module).specifiers.zip (s.record module).pendingSetters) = (s', .error error)) :
    module < s.records.size := by
  refine Nat.lt_of_not_le fun hle => ?_
  rw [record_of_size_le hle] at h
  simp [Record.blank, resolveDependencies] at h

/-- A step makes jobs and records in few ways. -/
theorem Rule.makes (h : Rule host m m') : Makes m m' := by
  cases h
  case move => exact .none rfl rfl
  case hookWaits | bodyWaits => exact .of_still (still_await ..)
  case bodyFails after _ =>
    subst after
    exact .none (by simp) (by simp)
  case publishes after way =>
    refine .none ?_ ?_
    · simp [way.still.size_records, after]
    · simp [way.still.size_jobs, after]
  case starts s _ _ _ url referrer _ =>
    have creates := creates_getOrCreate s url referrer
    have known : s.lookup url = some (s.getOrCreate url referrer).2 ∨
        (s.getOrCreate url referrer).2 < (s.getOrCreate url referrer).1.records.size := by
      cases h : s.lookup url with
      | some r => exact .inl (by rw [getOrCreate_of_lookup h])
      | none =>
        rw [getOrCreate_of_lookup_none h]
        exact .inr (by simp)
    rcases importRecord_cases (s.getOrCreate url referrer).1 (s.getOrCreate url referrer).2 with
      ⟨_, _, h⟩ | ⟨_, h⟩ | ⟨_, _, h⟩ | ⟨_, _, _, h⟩
    · rw [h]
      exact .records (.refl s) creates (fun _ _ => rfl) rfl (fun _ => rfl) rfl
    · rw [h]
      exact .records (.refl s) creates (fun _ _ => rfl) rfl (fun _ => rfl) rfl
    · rw [h]
      exact .records (.refl s) creates (fun _ _ => rfl) rfl (fun _ => rfl) rfl
    · rw [h]
      exact .graph creates known rfl rfl
  case defines => exact .definition rfl (by simp)
  case unresolved module s' error _ _ resolved =>
    have hmodule := lt_of_unresolved resolved
    refine .records ?_ (creates_resolveDependencies resolved) (fun r hr => ?_) (by simp)
      (fun j => by simp) (by simp)
    · exact idle_update fun x => ⟨rfl, rfl, rfl, rfl, rfl, rfl, rfl, rfl⟩
    · exact record_fail_of_ne (Nat.ne_of_gt (Nat.lt_of_lt_of_le hmodule hr))
  case resolves resolved =>
    refine .records ?_ (creates_resolveDependencies resolved) (fun r _ => rfl) rfl
      (fun j => rfl) rfl
    exact idle_update fun x => ⟨rfl, rfl, rfl, rfl, rfl, rfl, rfl, rfl⟩
  case joins way _ => exact .of_still (way.still.trans (still_setGroup ..))
  case joinWaits way _ _ | joinOrphaned way _ _ _ => exact .of_still way.still
  case joinFails way _ _ _ _ =>
    exact .none (by simp [way.still.size_records]) (by simp [way.still.size_jobs])
  case handsOver way _ after =>
    refine .none ?_ ?_
    · rw [after.still.size_records, (idle_foldl idle_listen _ _).size_records,
        way.still.size_records]
    · rw [after.still.size_jobs, (idle_foldl idle_listen _ _).size_jobs, way.still.size_jobs]
  case handedOver way =>
    refine .none ?_ ?_
    · rw [size_records_attach, (idle_foldl idle_listen _ _).size_records, way.still.size_records]
    · rw [attach_same.2.1, (idle_foldl idle_listen _ _).size_jobs, way.still.size_jobs]
  case gathers way _ _ => exact .of_still (way.still.trans (still_setGroup ..))
  case gatherWaits way _ _ _ | gathered way _ _ | gatherOrphaned way _ _ => exact .of_still way.still
  case gatherFails way _ _ =>
    exact .none (by simp [way.still.size_records]) (by simp [way.still.size_jobs])
  case turnDeferred way _ =>
    exact .deferred way rfl (by simp [state_job_newJob]) (by simp) record_setEvaluation_self (by simp)
      (by simp)
  case turnComes way =>
    exact .turn way rfl rfl (by simp [state_job_newJob]) (by simp) (by simp)
      ⟨body_takeTurn, record_takeTurn_self⟩
  case collects way _ _ => exact .of_still (way.still.trans (still_setGroup ..))
  case collectWaits way _ _ _ | collectOrphaned way _ | collectTooLate way _ _ =>
    exact .of_still way.still
  case collectFails way _ _ | collected way _ _ _ _ =>
    exact .none (by simp [way.still.size_records]) (by simp [way.still.size_jobs])
  all_goals exact .none (by simp) (by simp)

end Makes

/-- What a record is that has been made in a step. -/
inductive NewRecord (m m' : Machine C M) (r : RecordId) : Prop
  | made {url firstReferrer instantiation linking topLevel}
      (record : m'.store.record r = { url, firstReferrer, instantiation, linking, topLevel })
      (instantiates : Fresh m m' instantiation (.instantiate r))
      (links : Fresh m m' linking (.link r))
      (imports : ∀ j, topLevel = some j → Fresh m m' j (.linkGraph r (.start r) []))
  | defined {url bindings} (next : m'.control = .reply (.defined r))
      (record : m'.store.record r =
        { url, firstReferrer := none, bindings, state := .executed, hasExported := true
          instantiation := m.store.jobs.size, linking := m.store.jobs.size })
      (size : m'.store.jobs.size = m.store.jobs.size + 1)
      (state : (m'.store.job m.store.jobs.size).state = .finished (.ok ()))

/-- What a job is for that has been made in a step. -/
inductive NewJob (m m' : Machine C M) (j : JobId) : Prop
  | instantiate {r} (new : m.store.records.size ≤ r) (known : r < m'.store.records.size)
      (record : (m'.store.record r).instantiation = j)
      (state : (m'.store.job j).state = .waiting (.instantiate r))
  | link {r} (new : m.store.records.size ≤ r) (known : r < m'.store.records.size)
      (record : (m'.store.record r).linking = j)
      (state : (m'.store.job j).state = .waiting (.link r))
  | graph {r} (known : r < m'.store.records.size)
      (record : (m'.store.record r).topLevel = some j)
      (next : m'.control = .reply (.started (.waiting r j)))
      (state : (m'.store.job j).state = .waiting (.linkGraph r (.start r) []))
  | deferred {r jobs seen} (new : j = m.store.jobs.size)
      (way : Turn m.store m.stack m.control r [] jobs seen m'.stack)
      (next : m'.control = .visited (.ok (some j)) seen)
      (state : (m'.store.job j).state = .waiting (.executeAfter r jobs m.store.groups.size))
      (groups : m'.store.groups.size = m.store.groups.size + 1)
      (record : r < m.store.records.size → m'.store.record r =
        { m.store.record r with evaluation := some j })
  | turn {r seen st} (new : j = m.store.jobs.size)
      (way : Turn m.store m.stack m.control r [] [] seen st)
      (stack : m'.stack = .executing r j seen :: st) (next : m'.control = .poll j)
      (state : (m'.store.job j).state = .waiting (.runBody r (m.store.record r).body))
      (taken : Taken m m' r)
  | ready {r} (known : r < m'.store.records.size) (next : m'.control = .reply (.defined r))
      (instantiation : (m'.store.record r).instantiation = j)
      (linking : (m'.store.record r).linking = j)
      (state : (m'.store.job j).state = .finished (.ok ()))

section New

variable {host : Host C M} {m m' : Machine C M} {r : RecordId} {j : JobId}

theorem Makes.size_records_le (h : Makes m m') :
    m.store.records.size ≤ m'.store.records.size := by
  cases h with
  | none records _ | deferred _ _ _ _ _ records _ | turn _ _ _ _ records _ _ =>
    exact Nat.le_of_eq records.symm
  | graph creates _ store _ =>
    rw [store, startImport_same.1]
    exact creates.size_records_le
  | records idle creates _ records _ _ =>
    rw [records, ← idle.size_records]
    exact creates.size_records_le
  | definition store _ =>
    rw [store, define_same.1]
    exact Nat.le_succ _

theorem Makes.size_jobs_le (h : Makes m m') : m.store.jobs.size ≤ m'.store.jobs.size := by
  cases h with
  | none _ jobs => exact Nat.le_of_eq jobs.symm
  | deferred _ _ _ _ _ _ jobs | turn _ _ _ _ _ jobs _ =>
    rw [jobs]
    exact Nat.le_succ _
  | graph creates _ store _ =>
    rw [store, startImport_same.2.1]
    exact Nat.le_succ_of_le creates.size_jobs_le
  | records idle creates _ _ _ jobs =>
    rw [jobs, ← idle.size_jobs]
    exact creates.size_jobs_le
  | definition store _ =>
    rw [store, define_same.2.1]
    exact Nat.le_succ _

theorem Rule.size_records_le (h : Rule host m m') :
    m.store.records.size ≤ m'.store.records.size :=
  h.makes.size_records_le

/-- What is registered after a step was registered before it, or is new. -/
theorem Rule.mem_registry (h : Rule host m m') {e : String × RecordId}
    (he : e ∈ m'.store.registry) : e ∈ m.store.registry ∨
      m.store.records.size ≤ e.2 ∧ e.2 < m'.store.records.size := by
  cases h.news with
  | none _ registry _ | hookCalled _ _ _ _ registry _ | bodyStarted _ _ _ _ registry _
      | bodyEnded _ _ _ registry _ | changed _ _ _ registry _ | called _ _ _ registry _ =>
    exact .inl (registry ▸ he)
  | made idle creates _ registry size _ =>
    rw [registry] at he
    rw [size, ← idle.registry, ← idle.size_records]
    exact creates.mem_registry he
  | deleted _ store =>
    rw [store] at he
    exact .inl (mem_registry_delete he)
  | defined _ _ store =>
    rw [store, registry_define, List.mem_append, List.mem_singleton] at he
    rcases he with he | rfl
    · exact .inl (mem_registry_delete he)
    · rw [store, define_same.1]
      exact .inr ⟨Nat.le_refl _, Nat.lt_succ_self _⟩

/-- What is registered is there. -/
theorem Rule.registered (h : Rule host m m')
    (hs : ∀ e ∈ m.store.registry, e.2 < m.store.records.size) :
    ∀ e ∈ m'.store.registry, e.2 < m'.store.records.size := by
  intro e he
  rcases h.mem_registry he with he | ⟨_, lt⟩
  · exact Nat.lt_of_lt_of_le (hs e he) h.size_records_le
  · exact lt

theorem Rule.size_jobs_le (h : Rule host m m') : m.store.jobs.size ≤ m'.store.jobs.size :=
  h.makes.size_jobs_le

/-- A record that has been made has not got further than the start, unless it was defined. -/
theorem Makes.newRecord (h : Makes m m') (hr : m.store.records.size ≤ r)
    (hr' : r < m'.store.records.size) : NewRecord m m' r := by
  cases h with
  | none records _ | deferred _ _ _ _ _ records _ | turn _ _ _ _ records _ _ =>
    rw [records] at hr'
    exact absurd hr' (Nat.not_lt_of_le hr)
  | @graph s module _ creates _ store _ =>
    rw [store, startImport_same.1] at hr'
    obtain ⟨url, referrer, i, l, record, ⟨hi, hi', hi''⟩, hl, hl', hl''⟩ := creates.record_new hr hr'
    have state : ∀ j, j < s.jobs.size → (m'.store.job j).state = (s.job j).state := by
      intro j hj
      rw [store, state_job_startImport, if_neg (Nat.ne_of_lt hj)]
    have size : m'.store.jobs.size = s.jobs.size + 1 := by rw [store, startImport_same.2.1]
    have instantiates : Fresh m m' i (.instantiate r) :=
      ⟨hi, by rw [size]; exact Nat.lt_succ_of_lt hi', by rw [state i hi', hi'']⟩
    have links : Fresh m m' l (.link r) :=
      ⟨hl, by rw [size]; exact Nat.lt_succ_of_lt hl', by rw [state l hl', hl'']⟩
    by_cases hrm : r = module
    · subst hrm
      have record' : m'.store.record r =
          { url, firstReferrer := referrer, instantiation := i, linking := l
            topLevel := some s.jobs.size } := by
        rw [store, record_startImport_self hr', record]
      refine .made record' instantiates links ?_
      rintro j ⟨⟩
      exact ⟨creates.size_jobs_le, by rw [size]; exact Nat.lt_succ_self _,
        by rw [store, state_job_startImport, if_pos rfl]⟩
    · refine .made (Eq.trans ?_ record) instantiates links (by simp)
      rw [store, record_startImport_of_ne hrm]
  | @records s₀ s idle creates hrecord hrecords state jobs =>
    rw [hrecords] at hr'
    obtain ⟨url, referrer, i, l, record, ⟨hi, hi', hi''⟩, hl, hl', hl''⟩ :=
      creates.record_new (by rw [idle.size_records]; exact hr) hr'
    rw [idle.size_jobs] at hi hl
    refine .made ((hrecord r hr).trans record) ⟨hi, ?_, ?_⟩ ⟨hl, ?_, ?_⟩ (by simp)
    · rw [jobs]
      exact hi'
    · rw [state, hi'']
    · rw [jobs]
      exact hl'
    · rw [state, hl'']
  | definition store next =>
    rw [store, define_same.1] at hr'
    obtain rfl : r = m.store.records.size := Nat.le_antisymm (Nat.le_of_lt_succ hr') hr
    obtain ⟨bindings, record⟩ := record_define_new
    refine .defined next (by rw [store]; exact record) ?_ ?_
    · rw [store, define_same.2.1]
    · rw [store, state_job_define, if_pos rfl]

/-- A job that has been made is one of a record that has been made, the job of an import, or one
that executes a module. -/
theorem Makes.newJob (h : Makes m m')
    (registered : ∀ url r, m.store.lookup url = some r → r < m.store.records.size)
    (hj : m.store.jobs.size ≤ j) (hj' : j < m'.store.jobs.size) : NewJob m m' j := by
  cases h with
  | none _ jobs =>
    rw [jobs] at hj'
    exact absurd hj' (Nat.not_lt_of_le hj)
  | deferred way next state groups record _ jobs =>
    obtain rfl : j = m.store.jobs.size :=
      Nat.le_antisymm (Nat.le_of_lt_succ (Nat.lt_of_lt_of_eq hj' jobs)) hj
    exact .deferred rfl way next state groups record
  | turn way stack next state _ jobs taken =>
    obtain rfl : j = m.store.jobs.size :=
      Nat.le_antisymm (Nat.le_of_lt_succ (Nat.lt_of_lt_of_eq hj' jobs)) hj
    exact .turn rfl way stack next state taken
  | @graph s module url creates known store next =>
    have known : module < s.records.size := by
      rcases known with h | h
      · exact Nat.lt_of_lt_of_le (registered url module h) creates.size_records_le
      · exact h
    rw [store, startImport_same.2.1] at hj'
    rcases Nat.lt_or_eq_of_le (Nat.le_of_lt_succ hj') with hlt | rfl
    · have state : (m'.store.job j).state = (s.job j).state := by
        rw [store, state_job_startImport, if_neg (Nat.ne_of_lt hlt)]
      have keeps : ∀ (p : Record C → JobId), (∀ x job, p { x with topLevel := job } = p x) →
          ∀ r, p (m'.store.record r) = p (s.record r) := by
        intro p hp r
        rw [store, Store.startImport, record_update_keeps p fun x => hp x _, newJob_same.1]
      obtain ⟨r, hr, hr', ⟨hrecord, hstate⟩ | ⟨hrecord, hstate⟩⟩ := creates.job_new hj hlt
      · refine .instantiate hr (by rw [store, startImport_same.1]; exact hr') ?_ (state.trans hstate)
        rw [keeps Record.instantiation fun _ _ => rfl, hrecord]
      · refine .link hr (by rw [store, startImport_same.1]; exact hr') ?_ (state.trans hstate)
        rw [keeps Record.linking fun _ _ => rfl, hrecord]
    · refine .graph (by rw [store, startImport_same.1]; exact known) ?_ next ?_
      · rw [store, record_startImport_self known]
      · rw [store, state_job_startImport, if_pos rfl]
  | @records s₀ s idle creates record records state jobs =>
    rw [← idle.size_jobs] at hj
    rw [jobs] at hj'
    obtain ⟨r, hr, hr', ⟨hrecord, hstate⟩ | ⟨hrecord, hstate⟩⟩ := creates.job_new hj hj'
    · rw [idle.size_records] at hr
      exact .instantiate hr (by rw [records]; exact hr') (by rw [record r hr, hrecord])
        (by rw [state, hstate])
    · rw [idle.size_records] at hr
      exact .link hr (by rw [records]; exact hr') (by rw [record r hr, hrecord])
        (by rw [state, hstate])
  | definition store next =>
    rw [store, define_same.2.1] at hj'
    obtain rfl : j = m.store.jobs.size := Nat.le_antisymm (Nat.le_of_lt_succ hj') hj
    obtain ⟨bindings, record⟩ := record_define_new
    refine .ready ?_ next ?_ ?_ ?_
    · rw [store, define_same.1]
      exact Nat.lt_succ_self _
    · rw [store, record]
    · rw [store, record]
    · rw [store, state_job_define, if_pos rfl]

end New

/-! ### Groups -/

/-- What is told to an activity that a member of a group has ended. -/
inductive MemberEnds (g : GroupId) (i : Nat) : List (Frame C) → Control C → Outcome → Prop
  | joined {r dependencies st outcome} :
      MemberEnds g i (.joining r dependencies g i :: st) (.polled (some outcome)) outcome
  | linked {r children st seen} :
      MemberEnds g i (.linkingChildren r children g i :: st) (.linked (.ok none) seen) (.ok ())
  | failed {r children st error seen} :
      MemberEnds g i (.linkingChildren r children g i :: st) (.linked (.error error) seen)
        (.error error)
  | collected {r jobs st outcome} :
      MemberEnds g i (.executingAfter r jobs g i :: st) (.polled (some outcome)) outcome

/-- The error of an outcome. -/
def error? : Outcome → Option LoaderError
  | .ok () => none
  | .error error => some error

/-- How the members of a group that exists change. -/
inductive Settling (s : Store C) (st : List (Frame C)) (c : Control C) (s' : Store C)
    (g : GroupId) : Prop
  | same (same : SameMembers (s.group g) (s'.group g))
  | ended {i outcome} (cause : MemberEnds g i st c outcome)
      (size : (s'.group g).size = (s.group g).size)
      (left : (s'.group g).left = (s.group g).left.erase i)
      (errors : (s'.group g).errors = (s.group g).errors.set i (error? outcome))
      (orderly : IsOrderly (s.group g) → IsOrderly (s'.group g))

section Groups

variable {host : Host C M} {m m' : Machine C M} {s s₁ : Store C} {st st' : List (Frame C)}
  {c c' : Control C} {r : RecordId} {dependencies rest : List Dependency}
  {children : List LinkNode} {jobs : List JobId} {group g : GroupId} {seen : List RecordId}

theorem sameMembers_start (g : Group) (l : Listener) : SameMembers g (g.start l) := by
  unfold Group.start
  dsimp only
  split_ifs
  · exact ⟨rfl, rfl, rfl, fun ⟨left, due, sub, errors, pending⟩ => ⟨left, due, sub, errors, pending⟩⟩
  · exact ⟨rfl, rfl, rfl, fun ⟨left, _, _, errors, pending⟩ =>
      ⟨left, left, fun _ h => h, errors, pending⟩⟩

theorem sameMembers_next? {α : Type} {members : List α} {x : α} {i : Nat} {g g' : Group}
    (h : g.next? members = some (x, i, g')) : SameMembers g g' := by
  obtain ⟨due, hd, _, rfl⟩ := next?_eq_some h
  refine ⟨rfl, rfl, rfl, fun ⟨left, nodup, sub, errors, pending⟩ => ?_⟩
  rw [hd] at nodup sub
  exact ⟨left, nodup.of_cons, (List.cons_subset.mp sub).2, errors, pending⟩

/-- The member that is looked at next has not ended. -/
theorem mem_left_of_next? {α : Type} {members : List α} {x : α} {i : Nat} {g g' : Group}
    (orderly : IsOrderly g) (h : g.next? members = some (x, i, g')) : i ∈ g.left := by
  obtain ⟨due, hd, _⟩ := next?_eq_some h
  exact orderly.sub (by rw [hd]; exact List.mem_cons_self)

theorem Settling.trans {s₂ : Store C} (h : Settling s st c s₁ g)
    (h' : SameMembers (s₁.group g) (s₂.group g)) : Settling s st c s₂ g := by
  cases h with
  | same same => exact .same (same.trans h')
  | ended cause size left errors orderly =>
    exact .ended cause (h'.size.trans size) (h'.left.trans left) (h'.errors.trans errors)
      fun h => h'.orderly (orderly h)

/-- The groups when only others have changed. -/
private theorem Settling.of_eq (h : s₁.group = s.group) : Settling s st c s₁ g := by
  refine .same ?_
  rw [h]
  exact .refl _

theorem sameMembers_settle_none (s : Store C) (group : GroupId) (i : Nat) (l : Listener)
    (g : GroupId) : SameMembers (s.group g) ((s.settle group i none l).group g) := by
  have waits : SameMembers (s.group group) (s.group group).memberWaits :=
    ⟨rfl, rfl, rfl, fun ⟨left, due, sub, errors, pending⟩ => ⟨left, due, sub, errors, pending⟩⟩
  have same := sameMembers_setGroup waits g
  unfold settle
  dsimp only
  split_ifs
  · have told := sameMembers_tell
      ((s.setGroup group (s.group group).memberWaits).note (.rested group)) [l] g
    rw [note_same.2.2.2.2.1] at told
    exact same.trans told
  · exact same

theorem isOrderly_memberEnded {x : Group} (h : IsOrderly x) (i : Nat)
    (error : Option LoaderError) (l : Listener) : IsOrderly (x.memberEnded i error l) := by
  refine ⟨h.left.erase i, h.due.erase i, fun a ha => ?_, ?_, fun a ha => ?_⟩
  · obtain ⟨ne, mem⟩ := h.due.mem_erase_iff.mp ha
    exact (List.mem_erase_of_ne ne).mpr (h.sub mem)
  · exact (List.length_set).trans h.errors
  · obtain ⟨ne, mem⟩ := h.left.mem_erase_iff.mp ha
    exact (List.getElem?_set_ne ne.symm).trans (h.pending a mem)

theorem settle_some (s : Store C) (g : GroupId) (k : Nat) (outcome : Outcome) (l : Listener) :
    s.settle g k (some outcome) l =
      s.setGroup g ((s.group g).memberEnded k (error? outcome) l) := by
  cases outcome <;> rfl

/-- A group after one of its members, or of those of another, has ended. -/
theorem settling_settle {i : Nat} {outcome : Outcome} (l : Listener)
    (cause : MemberEnds group i st c outcome) :
    Settling s st c (s.settle group i (some outcome) l) g := by
  rw [settle_some]
  by_cases h : g = group ∧ group < s.groups.size
  · have ended : (s.setGroup group ((s.group group).memberEnded i (error? outcome) l)).group g =
        (s.group g).memberEnded i (error? outcome) l := by
      rw [group_setGroup, if_pos h, h.1]
    rw [← h.1] at cause
    refine .ended cause ?_ ?_ ?_ fun orderly => ?_ <;> rw [ended]
    · rfl
    · rfl
    · rfl
    · exact isOrderly_memberEnded orderly ..
  · refine .same ?_
    rw [group_setGroup, if_neg h]
    exact .refl _

theorem Joins.settling (way : Joins s st c r dependencies group s₁ st') : Settling s st c s₁ g := by
  cases way with
  | starts l => exact .same (sameMembers_setGroup (sameMembers_start _ _) g)
  | @settles _ _ _ _ _ outcome l =>
    cases outcome with
    | none => exact .same (sameMembers_settle_none ..)
    | some outcome => exact settling_settle l .joined

theorem HandsOver.settling (way : HandsOver s st c r dependencies rest s₁ st') :
    Settling s st c s₁ g := by
  cases way with
  | resumes => exact .same (.refl _)
  | starts way => exact way.settling

theorem Gathers.settling (way : Gathers s st c r children group seen s₁ st') :
    Settling s st c s₁ g := by
  cases way with
  | starts l => exact .same (sameMembers_setGroup (sameMembers_start _ _) g)
  | waits l => exact .same (sameMembers_settle_none ..)
  | ends l => exact settling_settle l .linked
  | fails l => exact settling_settle l .failed

theorem Collects.settling (way : Collects s st c r jobs group s₁ st') : Settling s st c s₁ g := by
  cases way with
  | starts l => exact .same (sameMembers_setGroup (sameMembers_start _ _) g)
  | @settles _ _ _ _ _ outcome l =>
    cases outcome with
    | none => exact .same (sameMembers_settle_none ..)
    | some outcome => exact settling_settle l .collected

theorem Propagates.group_eq {setters : List SetterId}
    (way : Propagates s setters r st s₁ st' c') : s₁.group = s.group := by
  cases way <;> rfl

/-- The members of a group change only when one of them ends. -/
theorem Rule.settling (h : Rule host m m') (hg : g < m.store.groups.size) :
    Settling m.store m.stack m.control m'.store g := by
  cases h
  case move => exact .same (.refl _)
  case hookWaits signal _ l _ | bodyWaits signal _ l _ => cases signal <;> exact .of_eq (by simp)
  case bodyFails after _ =>
    subst after
    exact .of_eq (by simp)
  case publishes after way =>
    subst after
    exact .of_eq (by simp [way.group_eq])
  case starts s _ _ _ url referrer _ =>
    exact .of_eq (by simpa using (creates_getOrCreate s url referrer).same.1)
  case pollRunning => exact .of_eq (by simp)
  case endsJob => exact .same (sameMembers_finish ..)
  case unresolved resolved =>
    exact .of_eq (by simpa using (creates_resolveDependencies resolved).same.1)
  case resolves resolved =>
    have same := (creates_resolveDependencies resolved).same
    refine .same ?_
    rw [group_newGroup, if_neg ?_, same.1]
    · exact .refl _
    · rw [same.2.1]
      exact Nat.ne_of_lt hg
  case joins way h =>
    exact way.settling.trans (sameMembers_setGroup (sameMembers_next? h) g)
  case joinWaits way _ _ | joinOrphaned way _ _ _ => exact way.settling
  case joinFails way _ _ _ _ =>
    exact way.settling.trans (by rw [fail_same.2.2.1]; exact .refl _)
  case handsOver way _ after =>
    refine way.settling.trans ?_
    rw [after.group_eq, (idle_foldl idle_listen _ _).group]
    exact .refl _
  case handedOver way =>
    refine way.settling.trans ?_
    rw [attach_same.2.2.1, (idle_foldl idle_listen _ _).group]
    exact .refl _
  case nodeLinked =>
    refine .same ?_
    rw [group_newGroup, if_neg (Nat.ne_of_lt hg)]
    exact .refl _
  case gathers way _ h =>
    exact way.settling.trans (sameMembers_setGroup (sameMembers_next? h) g)
  case gatherWaits way _ _ _ | gathered way _ _ | gatherOrphaned way _ _ => exact way.settling
  case gatherFails way _ _ =>
    exact way.settling.trans (by rw [fail_same.2.2.1]; exact .refl _)
  case turnDeferred way _ =>
    refine .same ?_
    rw [setEvaluation_same.2.2.1, newJob_same.2.2.1, group_newGroup, if_neg (Nat.ne_of_lt hg)]
    exact .refl _
  case collects way _ h =>
    exact way.settling.trans (sameMembers_setGroup (sameMembers_next? h) g)
  case collectWaits way _ _ _ | collectOrphaned way _ | collectTooLate way _ _ =>
    exact way.settling
  case collectFails way _ _ =>
    exact way.settling.trans (by rw [fail_same.2.2.1]; exact .refl _)
  case collected way _ _ _ _ =>
    exact way.settling.trans (by rw [takeTurn_same.2.2.1]; exact .refl _)
  all_goals exact .of_eq (by simp)

end Groups

/-- What a group is for that has been made in a step. -/
inductive NewGroup (m m' : Machine C M) : Prop
  | dependencies {r dependencies} (stack : m.stack = .linking r :: m'.stack)
      (control : m.control = .polled (some (.ok ())))
      (next : m'.control = .work (.awaitDependencies r dependencies m.store.groups.size))
      (registered : ∀ d ∈ dependencies, ∃ e ∈ m'.store.registry, e.2 = d.module)
      (group : m'.store.group m.store.groups.size = .ofSize dependencies.length)
  | children {r seen} (stack : m.stack = .linkingNode r seen :: m'.stack)
      (control : m.control = .polled (some (.ok ())))
      (next : m'.control = .link (.join r ((m.store.record r).dependencies.map .start)
        m.store.groups.size) seen)
      (group : m'.store.group m.store.groups.size =
        .ofSize (m.store.record r).dependencies.length)
  | jobs {r jobs seen} (way : Turn m.store m.stack m.control r [] jobs seen m'.stack)
      (next : m'.control = .visited (.ok (some m.store.jobs.size)) seen)
      (job : (m'.store.job m.store.jobs.size).state =
        .waiting (.executeAfter r jobs m.store.groups.size))
      (size : m'.store.jobs.size = m.store.jobs.size + 1)
      (group : m'.store.group m.store.groups.size = .ofSize jobs.length)

/-- A step makes at most one group. -/
theorem Rule.groups {host : Host C M} {m m' : Machine C M} (h : Rule host m m') :
    m'.store.groups.size = m.store.groups.size ∨
      m'.store.groups.size = m.store.groups.size + 1 ∧ NewGroup m m' := by
  cases h
  case move => exact .inl rfl
  case hookWaits | bodyWaits => exact .inl (still_await ..).size_groups
  case bodyFails after _ =>
    subst after
    exact .inl (by simp)
  case publishes after way =>
    subst after
    exact .inl (by simp [way.still.size_groups])
  case starts s _ _ _ url referrer _ =>
    exact .inl (by simpa using (creates_getOrCreate s url referrer).same.2.1)
  case unresolved resolved =>
    exact .inl (by simpa using (creates_resolveDependencies resolved).same.2.1)
  case resolves resolved =>
    have size := (creates_resolveDependencies resolved).same.2.1
    rw [update_same.2.2.2.1] at size
    refine .inr ⟨by simp [size], .dependencies rfl rfl (by rw [size]) ?_ ?_⟩
    · simpa using registered_of_resolveDependencies resolved
    · rw [← size, group_newGroup, if_pos rfl]
  case joins way _ => exact .inl (way.still.trans (still_setGroup ..)).size_groups
  case joinWaits way _ _ | joinOrphaned way _ _ _ => exact .inl way.still.size_groups
  case joinFails way _ _ _ _ => exact .inl (by simp [way.still.size_groups])
  case handsOver way _ after =>
    refine .inl ?_
    rw [after.still.size_groups, (idle_foldl idle_listen _ _).size_groups, way.still.size_groups]
  case handedOver way =>
    refine .inl ?_
    rw [attach_same.2.2.2.1, (idle_foldl idle_listen _ _).size_groups, way.still.size_groups]
  case nodeLinked =>
    exact .inr ⟨by simp, .children rfl rfl rfl (by rw [group_newGroup, if_pos rfl])⟩
  case gathers way _ _ => exact .inl (way.still.trans (still_setGroup ..)).size_groups
  case gatherWaits way _ _ _ | gathered way _ _ | gatherOrphaned way _ _ =>
    exact .inl way.still.size_groups
  case gatherFails way _ _ => exact .inl (by simp [way.still.size_groups])
  case turnDeferred way _ =>
    refine .inr ⟨by simp, .jobs way rfl (by simp [state_job_newJob]) (by simp) ?_⟩
    rw [setEvaluation_same.2.2.1, newJob_same.2.2.1, group_newGroup, if_pos rfl]
  case collects way _ _ => exact .inl (way.still.trans (still_setGroup ..)).size_groups
  case collectWaits way _ _ _ | collectOrphaned way _ | collectTooLate way _ _ =>
    exact .inl way.still.size_groups
  case collectFails way _ _ | collected way _ _ _ _ => exact .inl (by simp [way.still.size_groups])
  all_goals exact .inl (by simp)

/-- No member of a new group has been looked at. -/
theorem Rule.group_new {host : Host C M} {m m' : Machine C M} (h : Rule host m m') {g : GroupId}
    (new : m.store.groups.size ≤ g) : ∃ n, m'.store.group g = .ofSize n := by
  rcases h.groups with same | ⟨one, made⟩
  · exact ⟨0, group_of_size_le (same ▸ new)⟩
  · rcases Nat.eq_or_lt_of_le new with rfl | later
    · cases made with
      | dependencies _ _ _ _ group | children _ _ _ group | jobs _ _ _ _ group => exact ⟨_, group⟩
    · exact ⟨0, group_of_size_le (by rw [one]; exact later)⟩

/-- No step drops the loader. -/
theorem Rule.retired {host : Host C M} {m m' : Machine C M} (h : Rule host m m') :
    m'.store.retired = m.store.retired := by
  cases h
  case move => rfl
  case hookWaits | bodyWaits => exact (still_await ..).retired
  case bodyFails after _ =>
    subst after
    simp
  case publishes after way =>
    subst after
    simp [way.still.retired]
  case starts s _ _ _ url referrer _ => simpa using (creates_getOrCreate s url referrer).same.2.2.1
  case unresolved resolved => simpa using (creates_resolveDependencies resolved).same.2.2.1
  case resolves resolved => simpa using (creates_resolveDependencies resolved).same.2.2.1
  case joins way _ | joinWaits way _ _ | joinOrphaned way _ _ _ | joinFails way _ _ _ _ =>
    simp [way.still.retired]
  case handsOver way _ after =>
    rw [after.still.retired, (idle_foldl idle_listen _ _).retired, way.still.retired]
  case handedOver way =>
    rw [attach_same.2.2.2.2.2.1, (idle_foldl idle_listen _ _).retired, way.still.retired]
  case gathers way _ _ | gatherWaits way _ _ _ | gathered way _ _ | gatherOrphaned way _ _
      | gatherFails way _ _ =>
    simp [way.still.retired]
  case collects way _ _ | collectWaits way _ _ _ | collectOrphaned way _ | collectTooLate way _ _
      | collectFails way _ _ | collected way _ _ _ _ =>
    simp [way.still.retired]
  all_goals simp

theorem Rule.isAlive {host : Host C M} {m m' : Machine C M} (h : Rule host m m') (r : RecordId) :
    m'.store.isAlive r = m.store.isAlive r := by
  simp only [Store.isAlive, h.retired]

end Machine

end ModuleSystem.Loader
