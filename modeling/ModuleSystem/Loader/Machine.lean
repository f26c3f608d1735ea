import ModuleSystem.Loader.Host

/-!
# The loading machine

A machine is the loader in the middle of its work: the store, the memory of the host, the activities
under way, the innermost first, and what comes next. An activity that needs something from another
one puts it on the stack and goes on when it is handed the result. When the stack is empty and a
reply lies there, the machine is at rest, and the next request can be made.
-/

namespace ModuleSystem.Loader

/-- An activity under way, which waits for the one above it. -/
inductive Frame (C : Type) where
  /-- The hook of a module runs. -/
  | hook (module : RecordId)
  /-- The body of a module runs. -/
  | body (module : RecordId)
  /-- A setter runs. -/
  | setter (setter : SetterId)
  /-- Host code waits for the reply to a request. -/
  | asking (next : Reply → C)
  /-- An import of a module is advanced. -/
  | importing (module : RecordId)
  /-- A job is advanced. -/
  | advancing (job : JobId)
  /-- The queue of notifications is worked off. -/
  | draining
  /-- Exports have been made and their notifications queued. -/
  | publishing
  /-- A module is to be linked and its own instantiation is advanced first. -/
  | linking (module : RecordId)
  /-- A module is being linked and one of its dependencies is instantiated, which are a group. -/
  | joining (module : RecordId) (dependencies : List Dependency) (group : GroupId) (index : Nat)
  /-- A module is being linked and its setters are handed over, those in `rest` being left. -/
  | handingOver (module : RecordId) (dependencies rest : List Dependency)
  /-- The graph below a module is linked. -/
  | linkingGraph (module : RecordId)
  /-- A walk that links a graph is at a module, whose linking is advanced. -/
  | linkingNode (module : RecordId) (seen : List RecordId)
  /-- A walk that links a graph is at a dependency of a module; these are a group. -/
  | linkingChildren (module : RecordId) (children : List LinkNode) (group : GroupId) (index : Nat)
  /-- The graph below a module is executed. -/
  | executingGraph
  /-- A walk that executes a graph is at a dependency of a module; those in `rest` are left, and
  `jobs` have to end before the module can start. -/
  | visiting (module : RecordId) (rest : List RecordId) (jobs : List JobId)
  /-- A walk that executes a graph makes the first attempt at the job of a module. -/
  | executing (module : RecordId) (job : JobId) (seen : List RecordId)
  /-- The execution of a graph is waited for. -/
  | evaluating (job : JobId)
  /-- A module waits for jobs, which are a group, and one of them is advanced. -/
  | executingAfter (module : RecordId) (jobs : List JobId) (group : GroupId) (index : Nat)

/-- What comes next. -/
inductive Control (C : Type) where
  /-- Run host code. -/
  | host (code : C)
  /-- Serve a request. -/
  | serve (request : Request)
  /-- Hand over the reply to a request. -/
  | reply (reply : Reply)
  /-- Deliver the next notification. -/
  | drain
  /-- The notifications are delivered, or will be by an activity further out. -/
  | drained
  /-- Advance a job. -/
  | poll (job : JobId)
  /-- A job has been advanced: it has an outcome, or it waits. -/
  | polled (outcome : Option Outcome)
  /-- Go on with the work of the job that is being advanced. -/
  | work (work : Work C)
  /-- The job that is being advanced has to wait. -/
  | paused (work : Work C)
  /-- The job that is being advanced ends. -/
  | ended (outcome : Outcome)
  /-- Go on with a walk that links a graph; `seen` are the modules it has looked at. -/
  | link (node : LinkNode) (seen : List RecordId)
  /-- A walk that links a graph ends at a node or, if some of it is left, has to wait there. -/
  | linked (result : Except LoaderError (Option LinkNode)) (seen : List RecordId)
  /-- Go on with a walk that executes a graph; `seen` are the modules it has looked at. -/
  | visit (module : RecordId) (seen : List RecordId)
  /-- A walk that executes a graph is done with a module, but for a job that has to end. -/
  | visited (result : Except LoaderError (Option JobId)) (seen : List RecordId)
  /-- Host code gave up: end every activity under way. -/
  | unwind

/-- The loader in the middle of its work. -/
structure Machine (C M : Type) where
  store : Store C
  memory : M
  stack : List (Frame C) := []
  control : Control C := .reply .done

/-- Who is told when something that has to be waited for within an activity can go on; nothing if
that is up to the activity below it. The first attempt at a body is made for nobody. -/
def Frame.listener? {C : Type} (s : Store C) : Frame C → Option Listener
  | advancing job => some (.job job)
  | executing .. => some .nobody
  | joining _ _ group i | linkingChildren _ _ group i | executingAfter _ _ group i =>
    if (s.group group).isMany then some (.member group i) else none
  | _ => none

namespace Machine

variable {C M : Type}

/-- The reply of a machine that is at rest. -/
def reply? (m : Machine C M) : Option Reply :=
  match m.stack, m.control with
  | [], .reply r => some r
  | _, _ => none

/-- The machine with something else to come next. -/
def next (m : Machine C M) (control : Control C) : Machine C M :=
  { m with control }

/-- The machine with one more activity under way. -/
def push (m : Machine C M) (frame : Frame C) (control : Control C) : Machine C M :=
  { m with stack := frame :: m.stack, control }

/-- The machine with the innermost activity over; `stack` are the others. -/
def pop (m : Machine C M) (stack : List (Frame C)) (control : Control C) : Machine C M :=
  { m with stack, control }

/-- The machine with its store changed. -/
def mapStore (m : Machine C M) (f : Store C → Store C) : Machine C M :=
  { m with store := f m.store }

/-- Who is told when something that has to be waited for now can go on. -/
def listener (m : Machine C M) : Listener :=
  (m.stack.findSome? (Frame.listener? m.store)).getD .nobody

/-- The job that is being advanced ends with an error that its module carries from now on. -/
def failModule (m : Machine C M) (module : RecordId) (error : LoaderError) : Machine C M :=
  let (store, error) := m.store.fail module error
  { m with store, control := .ended (.error error) }

end Machine

end ModuleSystem.Loader
