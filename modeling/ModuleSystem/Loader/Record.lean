import ModuleSystem.Loader.Error
import ModuleSystem.Loader.Value

/-!
# Module records

A record is what the loader knows of one module: its exports, how far it has come, its dependencies
and the setters that wait for news of them, and the jobs that carry it through its phases. A record
goes forward through its states, or fails; it fails once, and keeps the error.
-/

namespace ModuleSystem.Loader

/-- The number of a setter. -/
abbrev SetterId := Nat

/-- The number of a job. -/
abbrev JobId := Nat

/-- How far a module has come. -/
inductive ModuleState where
  | unlinked
  | instantiating
  | linked
  | executing
  | executed
  | failed (error : LoaderError)
deriving DecidableEq

namespace ModuleState

/-- The name of a state. -/
def name : ModuleState → String
  | unlinked => "unlinked"
  | instantiating => "instantiating"
  | linked => "linked"
  | executing => "executing"
  | executed => "executed"
  | failed _ => "failed"

/-- The error of a failed module. -/
def error? : ModuleState → Option LoaderError
  | failed error => some error
  | _ => none

end ModuleState

/-- What the loader knows of a module. `C` is the type of host code. -/
structure Record (C : Type) where
  url : Url
  /-- The module whose import made the record. -/
  firstReferrer : Option Url
  bindings : Bindings := []
  state : ModuleState := .unlinked
  /-- Whether the module has exported anything, be it an empty list. -/
  hasExported : Bool := false
  /-- The specifiers of the dependencies, as the host registered them. -/
  specifiers : List String := []
  /-- The setters for the dependencies, until linking hands them over. -/
  pendingSetters : List (Option SetterId) := []
  /-- The records of the dependencies, once the module is linked. -/
  dependencies : List RecordId := []
  /-- The setters for the dependencies, once the module is linked. -/
  dependencySetters : List (Option SetterId) := []
  /-- The setters of the modules that depend on this one. -/
  importerSetters : List SetterId := []
  /-- The body, until it starts. -/
  body : Option C := none
  /-- The job that instantiates the module. -/
  instantiation : JobId
  /-- The job that links the module. -/
  linking : JobId
  /-- The job that executes the module, while it waits. -/
  evaluation : Option JobId := none
  /-- The job that links and executes the graph below the module. -/
  topLevel : Option JobId := none

namespace Record

variable {C : Type}

/-- A record without a URL, which stands for numbers that no record has. -/
def blank : Record C where
  url := { scheme := "", path := "" }
  firstReferrer := none
  instantiation := 0
  linking := 0

instance : Inhabited (Record C) := ⟨blank⟩

/-- The record in another state, which a failed one does not leave. -/
def enter (r : Record C) (state : ModuleState) : Record C :=
  match r.state with
  | .failed _ => r
  | _ => { r with state }

/-- The record failed with an error, unless it is executed or has failed before. -/
def poison (r : Record C) (error : LoaderError) : Record C :=
  match r.state with
  | .executed => r
  | .failed _ => r
  | _ => { r with state := .failed error, body := none, pendingSetters := [] }

/-- The record after a list of exports, and whether its bindings have changed. An executed module
exports no new names. -/
def exportAll (r : Record C) (entries : List (String × Value)) : Record C × Bool :=
  let (bindings, changed) := r.bindings.writeAll (r.state = .executed) entries
  ({ r with bindings, hasExported := true }, changed)

end Record

end ModuleSystem.Loader
