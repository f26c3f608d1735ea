import ModuleSystem.Loader.Description
import ModuleSystem.Loader.Encoding
import ModuleSystem.Script.Program

/-!
# What scripted hosts remember

The memory holds the modules that the host has, the gates that have been settled, the contexts that
hooks were called with, the imports that were started, and a log of what host code has done.

Namespaces are shown as pictures: a namespace goes on changing, and a picture of it does not. The
pictures number the namespaces in the order in which they were first shown.
-/

namespace ModuleSystem.Script

open Loader

/-- How a namespace looks at a moment, and its number. -/
structure Picture where
  number : Nat
  value : Json

/-- What host code notes in the log. -/
inductive Event where
  | fetched (module : Url)
  | instantiated (module : Url) (referrer : Option Url)
  | contextGiven (context exporter : String)
  | registered (registration : String)
  | bodyStarted (module : Url)
  | bodyEnded (module : Url)
  | immediateBody (module : Url)
  | ran (module : Url) (text : String)
  | setterStarted (module : Url) (specifier : String) (dependency : Picture)
  | setterEnded (module : Url) (specifier : String)
  | logged (module : Url) (text : String)
  | resolved (module : Url) (result : Except LoaderError Url)
  | spawned (module : Url) (task : Nat)
  | deleted (module : Url) (wasRegistered : Bool)
  | defined (module : Url) (number : Option Nat)
  | inspected (module target : Url) (state : Option ModuleState)
  /-- An import that was waited for ended; `caught` says whether its error would be caught. -/
  | imported (module : Url) (caught : Bool) (result : Except LoaderError Picture)

/-- How far a started import is. -/
inductive TaskState where
  | running
  | settled
  | abandoned
deriving DecidableEq

/-- An import that was started and that nobody waits for. -/
structure Task where
  handle : ImportHandle
  state : TaskState := .running

/-- What a scripted host remembers. -/
structure Memory where
  library : Library
  /-- Whether contexts and registrations are noted in the log. -/
  verbose : Bool := false
  /-- The gates that are settled: opened, or rejected with an error. -/
  gates : List (String × Except HostError Unit) := []
  /-- The contexts of all hooks, in the order of the calls. -/
  contexts : List ModuleContext := []
  tasks : Array Task := #[]
  /-- The namespaces that have been shown, in order. -/
  shown : List RecordId := []
  log : Array Event := #[]

namespace Memory

/-- The memory with one more event in the log. -/
def note (m : Memory) (e : Event) : Memory :=
  { m with log := m.log.push e }

/-- The memory with a gate settled, unless it was settled before. -/
def settleGate (m : Memory) (gate : String) (result : Except HostError Unit) : Memory :=
  { m with gates := m.gates ++ [(gate, result)] }

/-- How a gate was settled. -/
def gate? (m : Memory) (gate : String) : Option (Except HostError Unit) :=
  m.gates.lookup gate

/-- The memory with further modules in the library, which replace older ones. Modules of another
kind are left out. -/
def addModules (m : Memory) (added : Library) : Memory :=
  { m with library :=
      match m.library, added with
      | .programs entries, .programs others => .programs (others ++ entries)
      | .sources entries, .sources others => .sources (others ++ entries)
      | library, _ => library }

/-- The memory with the context of a hook. -/
def remember (m : Memory) (context : ModuleContext) : Memory :=
  { m with contexts := m.contexts ++ [context] }

/-- The contexts of the hooks that were called for a URL. -/
def contextsFor (m : Memory) (url : String) : List ModuleContext :=
  m.contexts.filter fun context => context.url.href == url

/-- The memory with a started import, and its number. -/
def addTask (m : Memory) (handle : ImportHandle) : Memory × Nat :=
  ({ m with tasks := m.tasks.push { handle } }, m.tasks.size)

/-- The memory with a task in another state. -/
def setTask (m : Memory) (task : Nat) (state : TaskState) : Memory :=
  { m with tasks := m.tasks.modify task fun t => { t with state } }

/-- The memory after a namespace has been shown, and its number. -/
def number (m : Memory) (module : RecordId) : Memory × Nat :=
  match m.shown.idxOf? module with
  | some n => (m, n)
  | none => ({ m with shown := m.shown ++ [module] }, m.shown.length)

/-- The memory after a picture of a namespace has been taken, and the picture. -/
def picture {C : Type} (m : Memory) (s : Store C) (module : RecordId) : Memory × Picture :=
  let (m, number) := m.number module
  (m, { number, value := s.valueJson (.exports module) })

/-- The memory after the result of an import has been shown, and what it looks like. -/
def pictureResult {C : Type} (m : Memory) (s : Store C) :
    Except LoaderError RecordId → Memory × Except LoaderError Picture
  | .error e => (m, .error e)
  | .ok module =>
    let (m, picture) := m.picture s module
    (m, .ok picture)

end Memory

end ModuleSystem.Script
