import ModuleSystem.ImportMap.Basic
import ModuleSystem.ImportMap.Diagnostic
import ModuleSystem.Json.Reader

/-!
# Import map documents

A document is an object with the members `imports` and `scopes`. `ImportMap.normalize` makes a map
of it: keys, addresses and scopes are resolved against the URL of the document, and what cannot be
used is left out with a diagnostic. `ImportMap.toDocument` writes a map as a document again.
-/

namespace ModuleSystem

/-- Why a text is not an import map document at all. -/
inductive DocumentError where
  | notJson (reason : Json.ReadError)
  | notObject (found : String)
deriving DecidableEq, Repr

/-- The error in words. -/
def DocumentError.message : DocumentError → String
  | notJson reason => "import map is not valid JSON: " ++ reason.message
  | notObject found => "import map must be a JSON object, found " ++ found

namespace ImportMap

/-! ### Reading -/

/-- The key under which a specifier is kept: the URL of a URL-like one where it has one, else the
specifier itself. -/
def normalizedKey (base : Url) (specifier : String) : String :=
  match Specifier.resolve? specifier (some base) with
  | .ok (some u) => u.href
  | .ok none => specifier
  | .error _ => specifier

/-- The key and the address of one entry of a document, if it can be used. -/
def readEntry (base : Url) (specifier : String) (address : Json) :
    Except ImportMapProblem (String × Url) :=
  if specifier == "" then .error .emptySpecifier
  else
    match address with
    | .string address =>
      match Specifier.resolveAgainst address base with
      | .error reason => .error (.addressNotUrl specifier address reason)
      | .ok u =>
        if Text.endsWithChar specifier '/' && !Text.endsWithChar u.href '/' then
          .error (.slashMismatch specifier address)
        else .ok (normalizedKey base specifier, u)
    | other => .error (.addressNotString specifier other.typeName)

/-- The mappings and the diagnostics after one more entry of a document. -/
def addEntry (base : Url) (scope : Option String) (read : Mappings × List Diagnostic)
    (entry : String × Json) : Mappings × List Diagnostic :=
  let (mappings, diagnostics) := read
  let (specifier, address) := entry
  let place := ImportMapPlace.entry scope specifier
  match readEntry base specifier address with
  | .error problem => (mappings, diagnostics ++ [{ problem, place }])
  | .ok (key, u) =>
    let replaced := (mappings.get? key).map fun old =>
      { problem := .duplicateKey specifier key old, place : Diagnostic }
    (mappings.put key u, diagnostics ++ replaced.toList)

/-- The mappings of an object of entries, and the diagnostics. -/
def readMappings (base : Url) (scope : Option String) (entries : List (String × Json)) :
    Mappings × List Diagnostic :=
  entries.foldl (addEntry base scope) ([], [])

/-- The scopes and the diagnostics after one more scope of a document. The entries of a scope are
resolved against the URL of the document as well, not against that of the scope. -/
def addScope (base : Url) (read : List Scope × List Diagnostic) (member : String × Json) :
    List Scope × List Diagnostic :=
  let (scopes, diagnostics) := read
  let (key, body) := member
  let place := ImportMapPlace.scope key
  match body with
  | .object entries =>
    match Specifier.resolveAgainst key base with
    | .error reason => (scopes, diagnostics ++ [{ problem := .scopeNotUrl key reason, place }])
    | .ok root =>
      let (mappings, more) := readMappings base (some key) entries
      (({ root, mappings : Scope }).putInto scopes, diagnostics ++ more)
  | other => (scopes, diagnostics ++ [{ problem := .scopeNotObject key other.typeName, place }])

/-- The members of an object under a name; none if it is missing, and a diagnostic if it is no
object. -/
def sectionMembers (name : String) (document : List (String × Json)) :
    List (String × Json) × List Diagnostic :=
  match Table.get? name document with
  | none => ([], [])
  | some (.object members) => (members, [])
  | some other =>
    ([], [{ problem := .memberNotObject name other.typeName, place := .member name }])

/-- The map of a document whose objects are sorted, and the diagnostics in the order of the
document. -/
def normalize (document : Json) (base : Url) : Except DocumentError (ImportMap × List Diagnostic) :=
  match document with
  | .object members =>
    let (entries, entriesProblem) := sectionMembers "imports" members
    let (imports, entryProblems) := readMappings base none entries
    let (bodies, scopesProblem) := sectionMembers "scopes" members
    let (scopes, scopeProblems) := bodies.foldl (addScope base) ([], [])
    .ok ({ imports, scopes }, entriesProblem ++ entryProblems ++ scopesProblem ++ scopeProblems)
  | other => .error (.notObject other.typeName)

/-- The map of a document given as text. -/
def parse (text : String) (base : Url) : Except DocumentError (ImportMap × List Diagnostic) :=
  match Json.read text with
  | .error reason => .error (.notJson reason)
  | .ok document => normalize document.sorted base

/-! ### Writing -/

/-- A URL as it is written in a document at `place`, if the document has one. -/
def writtenUrl (place : Option Url) (u : Url) : String :=
  match place with
  | some base => u.relativeTo base
  | none => u.href

/-- A key as it is written in a document at `place`. -/
def writtenKey (place : Option Url) (key : String) : String :=
  match place, Url.parse key with
  | some base, .ok u => u.relativeTo base
  | _, _ => key

/-- Mappings as an object of a document at `place`. -/
def mappingsDocument (place : Option Url) (mappings : Mappings) : Json :=
  .ofMembers (mappings.map fun (key, address) =>
    (writtenKey place key, .string (writtenUrl place address)))

/-- The map as a document. In a document that has a place, URLs of the same origin are written
relative to it. -/
def toDocument (m : ImportMap) (place : Option Url) : Json :=
  let imports := ("imports", mappingsDocument place m.imports)
  if m.scopes.isEmpty then .ofMembers [imports]
  else
    let scopes := m.scopes.map fun scope =>
      (writtenUrl place scope.root, mappingsDocument place scope.mappings)
    .ofMembers [imports, ("scopes", .ofMembers scopes)]

end ImportMap

end ModuleSystem
