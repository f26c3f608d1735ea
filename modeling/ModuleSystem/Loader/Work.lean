import ModuleSystem.Loader.Group

/-!
# Jobs

What takes several attempts is a job: instantiating a module, linking it, executing it, and doing
all of this for the graph below it. A job is shared: whoever needs it advances it, and its outcome
is kept. While it waits, what is left to do is kept as `Work`; `C` is the type of host code. Those
that have advanced the job and have to wait for it are its subscribers. They are told when it can go
on or ends, in the order in which they first came, and each of them only once until it comes again.
-/

namespace ModuleSystem.Loader

/-- How a job ends. -/
abbrev Outcome := Except LoaderError Unit

/-- A dependency while its dependent is being linked. -/
structure Dependency where
  module : RecordId
  setter : Option SetterId
deriving DecidableEq

/-- A walk that links every module reachable from one, as far as it has come: what is left to do at
one module, and at the dependencies below it. -/
inductive LinkNode where
  /-- The module has not been looked at. -/
  | start (module : RecordId)
  /-- The module is to be linked itself. -/
  | awaitLinked (module : RecordId)
  /-- The module is linked; its dependencies are to be, which are a group. -/
  | join (module : RecordId) (children : List LinkNode) (group : GroupId)

/-- What is left of a job. -/
inductive Work (C : Type) where
  /-- Ask the host for the registration of a module. -/
  | instantiate (module : RecordId)
  /-- Wait for the registration of a module. -/
  | awaitHook (module : RecordId) (code : C)
  /-- Link a module, once it is instantiated. -/
  | link (module : RecordId)
  /-- Wait until the dependencies of a module are instantiated, then hand over its setters. -/
  | awaitDependencies (module : RecordId) (dependencies : List Dependency) (group : GroupId)
  /-- Link the graph below a module, then execute it. -/
  | linkGraph (module : RecordId) (node : LinkNode) (seen : List RecordId)
  /-- Wait for the execution of the graph. -/
  | awaitEvaluation (job : JobId)
  /-- Execute a module, once the dependencies that are still executing are done. -/
  | executeAfter (module : RecordId) (jobs : List JobId) (group : GroupId)
  /-- Start the body of a module, if it has one. -/
  | runBody (module : RecordId) (body : Option C)
  /-- Wait for the body of a module. -/
  | awaitBody (module : RecordId) (code : C)

/-- The state of a job. -/
inductive JobState (C : Type) where
  | waiting (work : Work C)
  /-- The job is being advanced. -/
  | running
  | finished (outcome : Outcome)
  /-- Host code gave up while the job was being advanced. -/
  | abandoned

instance {C : Type} : Inhabited (JobState C) := ⟨.finished (.ok ())⟩

/-- Someone who has come to wait for a job. -/
structure Subscription where
  listener : Listener
  /-- Whether the listener has not been told since it came. -/
  isActive : Bool := true

/-- What is known of a job. -/
structure Job (C : Type) where
  state : JobState C
  subscriptions : List Subscription := []

namespace Job

variable {C : Type}

instance : Inhabited (Job C) := ⟨{ state := default }⟩

/-- The job with a subscriber who has come, for the first time or again. -/
def subscribe (listener : Listener) (job : Job C) : Job C :=
  if job.subscriptions.any fun x => x.listener == listener then
    { job with subscriptions := job.subscriptions.map fun x =>
        if x.listener = listener then { x with isActive := true } else x }
  else { job with subscriptions := job.subscriptions ++ [{ listener }] }

/-- The job after its subscribers have been told. -/
def silence (job : Job C) : Job C :=
  { job with subscriptions := job.subscriptions.map fun x => { x with isActive := false } }

/-- The subscribers that are to be told, in order. -/
def active (job : Job C) : List Listener :=
  (job.subscriptions.filter Subscription.isActive).map Subscription.listener

end Job

/-- Host code that is told of the namespace of a dependency. -/
structure Setter (C : Type) where
  run : RecordId → C
  /-- Whether the setter is running at the moment. -/
  isRunning : Bool := false

end ModuleSystem.Loader
