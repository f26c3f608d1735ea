import ModuleSystem.Loader.Step
import ModuleSystem.Script.Host

/-!
# Sessions

A session is a loader with a scripted host, to which operations are applied one after the other.
After an operation the started imports are advanced, each of them once in a round and in the order
in which they were started, until a whole round changes nothing.
-/

namespace ModuleSystem.Script

open Loader

/-- A loader at rest and the memory of its host. -/
structure Session where
  store : Store Code
  memory : Memory

/-- What is done with the context of a module. -/
inductive ContextOperation where
  | publish (entries : List (String × Term))
  | start (specifier : String)
  | resolve (specifier : String)
  | describe

/-- What can be done in a session. -/
inductive Operation where
  | start (specifier : String) (referrer : Option Url)
  /-- Only advance the started imports. -/
  | run
  | addModules (added : Library)
  | settleGate (gate : String) (result : Except HostError Unit)
  | abandon (task : Nat)
  | resolve (specifier : String) (referrer : Option Url)
  | has (url : Url)
  | get (url : Url)
  | state (url : Url)
  | error (url : Url)
  | delete (url : Url)
  | define (url : Url) (entries : List (String × Term))
  | registry
  | dropLoader
  | newLoader
  /-- Use one of the contexts that hooks were called with for a URL, by default the latest. -/
  | inContext (url : String) (index : Option Nat) (operation : ContextOperation)

/-- What an operation answers. -/
inductive Answer where
  | nothing
  | flag (b : Bool)
  | started (task : Nat)
  | resolved (result : Except LoaderError Url)
  | module (picture : Option Picture)
  | state (state : Option ModuleState)
  | error (error : Option LoaderError)
  | registry (entries : Json)
  | context (url : Url) (referrer : Option Url)
  /-- Host code gave up. -/
  | aborted
  | noContext
  | noLoader

/-- A started import that has ended. -/
structure Settlement where
  task : Nat
  result : Except LoaderError Picture

namespace Session

/-- How many steps a request may take, and how many rounds an operation. -/
def patience : Nat := 1000000000000

/-- Makes a request of the loader. -/
def request (s : Session) (r : Request) : Session × Reply :=
  let start : Machine Code Memory := { store := s.store, memory := s.memory }
  let m := (start.request r).run host patience
  ({ store := m.store, memory := m.memory }, m.reply?.getD .aborted)

/-! ### Started imports -/

/-- Advances a started import once. -/
def advance (s : Session) (task : Nat) : Session × List Settlement :=
  match s.memory.tasks[task]? with
  | some { handle, state := .running } =>
    match s.request (.poll handle) with
    | (s, .progress (some result)) =>
      let (memory, result) := s.memory.pictureResult s.store result
      ({ s with memory := memory.setTask task .settled }, [{ task, result }])
    | (s, _) => (s, [])
  | _ => (s, [])

/-- Advances the started imports from one on, those included that are started on the way. -/
def advanceFrom : Nat → Nat → Session → Session × List Settlement
  | 0, _, s => (s, [])
  | fuel + 1, task, s =>
    if s.memory.tasks.size ≤ task then (s, [])
    else
      let (s, first) := s.advance task
      let (s, others) := advanceFrom fuel (task + 1) s
      (s, first ++ others)

/-- How much has happened so far. -/
def progress (s : Session) : Nat × Nat × Nat :=
  (s.store.history.length, s.memory.log.size, s.memory.tasks.size)

/-- Advances the started imports in rounds until a round changes nothing. -/
def settle : Nat → Session → Session × List Settlement
  | 0, s => (s, [])
  | rounds + 1, s =>
    let before := s.progress
    let (s, first) := advanceFrom patience 0 s
    if first.isEmpty && s.progress == before then (s, [])
    else
      let (s, others) := settle rounds s
      (s, first ++ others)

/-! ### Operations -/

/-- The session with an import that was started, which the reply tells of. -/
def addTask (result : Session × Reply) : Session × Answer :=
  match result with
  | (s, .started handle) =>
    let (memory, task) := s.memory.addTask handle
    ({ s with memory }, .started task)
  | (s, _) => (s, .aborted)

/-- The answer that shows a namespace. -/
def showModule (s : Session) (module : RecordId) : Session × Answer :=
  let (memory, picture) := s.memory.picture s.store module
  ({ s with memory }, .module (some picture))

/-- Whether a started import has neither ended nor been abandoned. -/
def isRunning (s : Session) (task : Nat) : Bool :=
  match s.memory.tasks[task]? with
  | some t => t.state == .running
  | none => false

/-- The started imports that have neither ended nor been abandoned. -/
def pending (s : Session) : List Nat :=
  (List.range s.memory.tasks.size).filter s.isRunning

/-- Applies an operation to a context. -/
def applyInContext (s : Session) (context : ModuleContext) :
    ContextOperation → Session × Answer
  | .publish entries =>
    match s.request (.publish context.module (evalEntries s.store entries)) with
    | (s, .done) => (s, .nothing)
    | (s, _) => (s, .aborted)
  | .start specifier => addTask (s.request (.startFrom context.module specifier))
  | .resolve specifier => (s, .resolved (s.store.resolveFrom context.module specifier))
  | .describe => (s, .context context.url context.referrer)

/-- Applies an operation that only a loader can carry out. -/
def applyToLoader (s : Session) : Operation → Session × Answer
  | .start specifier referrer => addTask (s.request (.start specifier referrer))
  | .resolve specifier referrer => (s, .resolved (s.store.resolve specifier referrer))
  | .has url => (s, .flag (s.store.has url))
  | .get url => (s.store.get? url).elim (s, .module none) s.showModule
  | .state url => (s, .state (s.store.state? url))
  | .error url => (s, .error (s.store.error? url))
  | .delete url =>
    match s.request (.delete url) with
    | (s, .deleted wasRegistered) => (s, .flag wasRegistered)
    | (s, _) => (s, .aborted)
  | .define url entries =>
    match s.request (.define url (evalEntries s.store entries)) with
    | (s, .defined module) => s.showModule module
    | (s, _) => (s, .aborted)
  | .registry => (s, .registry s.store.registryJson)
  | _ => (s, .nothing)

/-- Applies an operation. -/
def apply (s : Session) : Operation → Session × Answer
  | .run => (s, .nothing)
  | .addModules added => ({ s with memory := s.memory.addModules added }, .nothing)
  | .settleGate gate result =>
    ({ store := s.store.signal gate, memory := s.memory.settleGate gate result }, .nothing)
  | .abandon task =>
    if s.isRunning task then
      ({ s with memory := s.memory.setTask task .abandoned }, .flag true)
    else (s, .flag false)
  | .dropLoader =>
    let (store, hadLoader) := s.store.dropLoader
    ({ s with store }, .flag hadLoader)
  | .newLoader => ({ s with store := s.store.newLoader }, .nothing)
  | .inContext url index operation =>
    let contexts := s.memory.contextsFor url
    match contexts[index.getD (contexts.length - 1)]? with
    | none => (s, .noContext)
    | some context => s.applyInContext context operation
  | operation =>
    if s.store.hasLoader then s.applyToLoader operation else (s, .noLoader)

/-- What happens in a session when an operation is applied. -/
structure Round where
  answer : Answer
  /-- The started imports that ended, in the order in which they did. -/
  settled : List Settlement
  /-- What host code noted, in order. -/
  log : List Event
  /-- The registered modules and their states, unless there is no loader. -/
  entries : Option (List (Url × ModuleState))

/-- Applies an operation and, unless they are held back, advances the started imports. -/
def perform (s : Session) (operation : Operation) (hold : Bool) : Session × Round :=
  let s : Session := { s with memory := { s.memory with log := #[] } }
  let (s, answer) := s.apply operation
  let (s, settled) := if hold then (s, []) else settle patience s
  let entries := if s.store.hasLoader then some s.store.entries else none
  (s, { answer, settled, log := s.memory.log.toList, entries })

end Session

end ModuleSystem.Script
