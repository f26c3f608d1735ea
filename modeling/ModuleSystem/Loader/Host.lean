import ModuleSystem.Loader.Store

/-!
# Host code

The loader runs nothing itself. For every module it calls a hook of the host, which registers the
dependencies, setters and body of the module; bodies and setters are host code too. `C` is the type
of host code: a value of it is a piece of code together with the place it has come to. `M` is the
type of whatever the host remembers.

Host code runs in steps. In one step it may look at the store and change its memory, and then it
asks the loader for something and goes on with the reply, or waits, or ends, or gives up.
-/

namespace ModuleSystem.Loader

/-- What a hook is told of the module it is called for. -/
structure ModuleContext where
  module : RecordId
  url : Url
  /-- The module whose import made the record. -/
  referrer : Option Url
deriving DecidableEq

/-- What a hook says of a module. There has to be one setter, or none, for each dependency. -/
structure Registration (C : Type) where
  dependencies : List String := []
  setters : List (Option (RecordId → C)) := []
  body : Option C := none

instance {C : Type} : Inhabited (Registration C) := ⟨{}⟩

/-- An import that has been started. -/
inductive ImportHandle where
  | failed (error : LoaderError)
  /-- The module was executed before. -/
  | executed (module : RecordId)
  | waiting (module : RecordId) (job : JobId)
deriving DecidableEq

/-- What host code, or anyone outside, may ask the loader for. -/
inductive Request where
  /-- Publish values in the namespace of a module. -/
  | publish (module : RecordId) (entries : List (String × Value))
  /-- Start an import. -/
  | start (specifier : String) (referrer : Option Url)
  /-- Start an import in the name of a module. -/
  | startFrom (module : RecordId) (specifier : String)
  /-- Advance an import. -/
  | poll (handle : ImportHandle)
  /-- Register an executed module of the given exports. -/
  | define (url : Url) (entries : List (String × Value))
  /-- Take a module out of the registry. -/
  | delete (url : Url)

/-- What the loader replies. -/
inductive Reply where
  | done
  | started (handle : ImportHandle)
  /-- How an import stands: nothing while it waits, else its namespace or its error. -/
  | progress (result : Option (Except LoaderError RecordId))
  | defined (module : RecordId)
  | deleted (wasRegistered : Bool)
  /-- Host code gave up on the way. -/
  | aborted

/-- What host code does next. -/
inductive Action (C : Type) where
  | ask (request : Request) (next : Reply → C)
  /-- Wait, for a signal of the given name if there is one: the code goes on when it is advanced
  again. A setter cannot wait, and ends. -/
  | wait (signal : Option String) (next : C)
  /-- End. What a setter ends with does not count, nor does what a body registers. -/
  | finish (result : Except HostError (Registration C))
  /-- Give up, and with it everything that waits for this code at the moment. -/
  | abort

/-- The host: its hooks, and the way its code runs. -/
structure Host (C M : Type) where
  instantiate : ModuleContext → C
  step : Store C → M → C → M × Action C

end ModuleSystem.Loader
