import ModuleSystem.Loader.Error
import ModuleSystem.Loader.Value

/-!
# Scripted modules

A scripted module is given by what its host code does. Its hook, its setters and its body are lists
of steps, which are made one after the other. Alternatively a module is given by a source text,
which has to be fetched first.
-/

namespace ModuleSystem.Script

open Loader

/-- A value that is worked out when a step is made. -/
inductive Term where
  | value (v : Value)
  /-- The namespace of the executed module registered under a URL; without one, undefined. -/
  | exports (url : Url)
deriving DecidableEq

/-- A step of host code. -/
inductive Step where
  | log (text : String)
  /-- Publish values of the module. -/
  | publish (entries : List (String × Term))
  | resolve (specifier : String)
  /-- Start an import and leave it to others. -/
  | spawn (specifier : String)
  | delete (url : Url)
  | define (url : Url) (entries : List (String × Term))
  /-- Look up the state of a module. -/
  | inspect (url : Url)
  /-- In a setter: publish a value of the dependency under another name. -/
  | copy (source target : String)
  /-- In a setter: publish the namespace of the dependency. -/
  | copyAll (name : String)
  /-- Give up, and with it everything that waits for this step. -/
  | giveUp
  /-- Wait for a gate, and fail if it is rejected. -/
  | wait (gate : String)
  | fail (reason : HostError)
  /-- Wait for an import. If that fails, the code fails unless it catches the error. -/
  | await (specifier : String) (catches : Bool)
deriving DecidableEq

/-- The body of a scripted module. -/
inductive Body where
  | steps (steps : List Step)
  /-- A body that ends at once, with an error of the given text unless that is empty. -/
  | immediate (failure : String)
deriving DecidableEq

/-- A module whose host code is a script. -/
structure Program where
  /-- The steps of the hook before it registers anything. -/
  start : List Step := []
  /-- The specifiers of the dependencies and the steps of their setters. -/
  dependencies : List (String × Option (List Step)) := []
  /-- How many setters to register, if not one for each dependency. -/
  setterCount : Option Nat := none
  body : Option Body := none
deriving DecidableEq

/-- A module that is given by a source text. -/
structure Source where
  text : String := ""
  /-- The gate to wait for before the text is there. -/
  gate : Option String := none
  /-- Why the text cannot be fetched. -/
  failure : Option HostError := none
deriving DecidableEq

/-- The modules that a host has under URLs, all of one kind. -/
inductive Library where
  | programs (entries : List (String × Program))
  | sources (entries : List (String × Source))
deriving DecidableEq

end ModuleSystem.Script
