import ModuleSystem.Json.Basic
import ModuleSystem.Specifier

/-!
# Diagnostics of import maps

An import map document may hold members that cannot be used. They are left out, and for each of them
a diagnostic says where it stands and what is wrong with it.
-/

namespace ModuleSystem

/-- A place in an import map document: a member at the top, a scope, or an entry at the top or in
the scope of the given key. -/
inductive ImportMapPlace where
  | member (name : String)
  | scope (key : String)
  | entry (scope : Option String) (specifier : String)
deriving DecidableEq, Repr

/-- The written form of a place. -/
def ImportMapPlace.text : ImportMapPlace → String
  | member name => name
  | scope key => "scopes[" ++ Text.quote key ++ "]"
  | entry none specifier => "imports[" ++ Text.quote specifier ++ "]"
  | entry (some key) specifier =>
    "scopes[" ++ Text.quote key ++ "][" ++ Text.quote specifier ++ "]"

/-- What is wrong with a part of an import map document. -/
inductive ImportMapProblem where
  /-- The member is there, but it is no object. -/
  | memberNotObject (name found : String)
  /-- The address of a specifier is no string. -/
  | addressNotString (specifier found : String)
  /-- The address of a specifier has no URL. -/
  | addressNotUrl (specifier address : String) (reason : SpecifierError)
  /-- The specifier ends with a slash and the URL of its address does not. -/
  | slashMismatch (specifier address : String)
  /-- The specifier is empty. -/
  | emptySpecifier
  /-- The key of a scope has no URL. -/
  | scopeNotUrl (key : String) (reason : SpecifierError)
  /-- The scope is no object. -/
  | scopeNotObject (key found : String)
  /-- The specifier has the key of an earlier one, whose address it replaces. -/
  | duplicateKey (specifier key : String) (replaced : Url)
deriving DecidableEq

namespace ImportMapProblem

/-- The code of a problem, which stays the same between releases. -/
def code : ImportMapProblem → String
  | memberNotObject .. => "IMAP0001"
  | addressNotString .. => "IMAP0002"
  | addressNotUrl .. => "IMAP0003"
  | slashMismatch .. => "IMAP0004"
  | emptySpecifier => "IMAP0005"
  | scopeNotUrl .. => "IMAP0006"
  | scopeNotObject .. => "IMAP0007"
  | duplicateKey .. => "IMAP0008"

/-- The problem in words. -/
def message : ImportMapProblem → String
  | memberNotObject name found => Text.quote name ++ " must be an object, found " ++ found
  | addressNotString specifier found =>
    "address for " ++ Text.quote specifier ++ " must be a string, found " ++ found
  | addressNotUrl specifier address _ =>
    "address " ++ Text.quote address ++ " for " ++ Text.quote specifier ++ " is not a valid URL"
  | slashMismatch specifier address =>
    "address " ++ Text.quote address ++ " must end with \"/\" because " ++ Text.quote specifier
      ++ " does"
  | emptySpecifier => "specifier keys cannot be empty"
  | scopeNotUrl key _ => "scope prefix " ++ Text.quote key ++ " is not a valid URL"
  | scopeNotObject key found =>
    "scope " ++ Text.quote key ++ " must be an object, found " ++ found
  | duplicateKey specifier key _ =>
    Text.quote specifier ++ " normalizes to " ++ Text.quote key ++ ", which is already mapped"

/-- Further remarks on a problem. -/
def notes : ImportMapProblem → List String
  | addressNotUrl _ _ reason => [reason.message]
  | scopeNotUrl _ reason => [reason.message]
  | duplicateKey _ _ replaced => ["replaced previous address " ++ replaced.href]
  | _ => []

end ImportMapProblem

/-- A problem and where it stands. -/
structure Diagnostic where
  problem : ImportMapProblem
  place : ImportMapPlace
deriving DecidableEq

namespace Diagnostic

/-- How serious a diagnostic is: what is wrong is left out, which is never an error. -/
def severity (_ : Diagnostic) : String :=
  "warning"

/-- A diagnostic over several lines: what, where and the remarks. -/
def display (d : Diagnostic) : String :=
  let notes := d.problem.notes.map fun note => "\n  = note: " ++ note
  d.severity ++ "[" ++ d.problem.code ++ "]: " ++ d.problem.message ++ "\n  --> " ++ d.place.text
    ++ String.join notes

/-- A diagnostic as JSON, its members in the order given here. -/
def toJson (d : Diagnostic) : Json :=
  .object [("code", .string d.problem.code), ("severity", .string d.severity),
    ("message", .string d.problem.message), ("path", .string d.place.text),
    ("notes", .ofStrings d.problem.notes)]

end Diagnostic

end ModuleSystem
