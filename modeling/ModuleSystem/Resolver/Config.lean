import ModuleSystem.ImportMap.Document
import ModuleSystem.Json.Reader
import ModuleSystem.Resolver.Basic

/-!
# Configuration of resolvers

A configuration is an object with the members `importMap`, `importMapUrl` and `defaultExtension`, or
an array of their values in this order. The import map is a document of its own, which stands at
`importMapUrl` or, without one, at the base URL. Members of other names do not count, and their
values are not read: they only have to have an outline.
-/

namespace ModuleSystem

/-- Why a value is not a configuration. -/
inductive ConfigFault where
  | notJson (reason : Json.ReadError)
  | notConfiguration (found : String)
  | tooManyItems
  | duplicate (name : String)
  | invalidUrl (name : String)
  | invalidPolicy
deriving DecidableEq, Repr

/-- The fault in words. -/
def ConfigFault.message : ConfigFault → String
  | notJson reason => reason.message
  | notConfiguration found => "a configuration cannot be " ++ found
  | tooManyItems => "the array has too many items"
  | duplicate name => "duplicate member " ++ name
  | invalidUrl name => name ++ " is not a valid URL"
  | invalidPolicy => "the default extension is neither a flag nor a string"

/-- What a resolver is made from. -/
structure ResolverConfig where
  importMap : Option Json := none
  importMapUrl : Option Url := none
  extension : ExtensionPolicy := .disabled

namespace ResolverConfig

/-- Why there is no resolver for a configuration. -/
inductive Error where
  | parse (fault : ConfigFault)
  | importMap (reason : DocumentError)
  | missingBase
deriving DecidableEq, Repr

/-- The error in words. -/
def Error.message : Error → String
  | parse fault => "invalid configuration: " ++ fault.message
  | importMap reason => reason.message
  | missingBase => "an import map was configured without a base URL to resolve it against"

/-- The value of a member that may be given once at most. -/
def uniqueMember? (name : String) (members : List (String × Json)) :
    Except ConfigFault (Option Json) :=
  match members.filter fun m => m.1 == name with
  | [] => .ok none
  | [(_, value)] => .ok (some value)
  | _ => .error (.duplicate name)

/-- A document, which is not there if it is null. -/
def documentOf : Option Json → Option Json
  | none | some .null => none
  | some document => some document.sorted

/-- A URL, which is not there if it is null. -/
def urlOf (name : String) : Option Json → Except ConfigFault (Option Url)
  | none | some .null => .ok none
  | some (.string s) => ((Url.parse s).mapError fun _ => .invalidUrl name).map some
  | some _ => .error (.invalidUrl name)

/-- A policy; null is not one. -/
def policyOf : Option Json → Except ConfigFault ExtensionPolicy
  | none => .ok .disabled
  | some value =>
    match ExtensionPolicy.ofJson? value with
    | some policy => .ok policy
    | none => .error .invalidPolicy

/-- The configuration of the three values, as far as they are given. -/
def ofValues (importMap importMapUrl extension : Option Json) :
    Except ConfigFault ResolverConfig := do
  return { importMap := documentOf importMap
           importMapUrl := ← urlOf "importMapUrl" importMapUrl
           extension := ← policyOf extension }

/-- The names of the members that configure a resolver. -/
def memberNames : List String :=
  ["importMap", "importMapUrl", "defaultExtension"]

/-- The configuration that members of an object give; members of other names do not count. -/
def ofMembers (members : List (String × Json)) : Except ConfigFault ResolverConfig := do
  ofValues (← uniqueMember? "importMap" members) (← uniqueMember? "importMapUrl" members)
    (← uniqueMember? "defaultExtension" members)

/-- Reads the members of a configuration that count. -/
def readMembers (members : List (Json.StringLiteral × Json.Outline)) :
    Except Json.ReadError (List (String × Json)) := do
  let members ← Json.readKeys members
  (members.filter fun m => memberNames.contains m.1).mapM fun (key, value) =>
    return (key, ← value.value (Json.maxDepth - 1))

/-- Reads a configuration. -/
def parse (text : String) : Except ConfigFault ResolverConfig := do
  match ← (Json.outline text).mapError .notJson with
  | .object members => ofMembers (← (readMembers members).mapError .notJson)
  | .array items =>
    if items.length > 3 then throw .tooManyItems
    let values ← (Json.readItems (Json.maxDepth - 1) items).mapError .notJson
    ofValues values[0]? values[1]? values[2]?
  | other => throw (.notConfiguration other.typeName)

/-- The resolver of a configuration, and the diagnostics of its import map. -/
def build (config : ResolverConfig) (base : Option Url) :
    Except Error (Resolver × List Diagnostic) :=
  match config.importMap with
  | none => .ok ({ extension := config.extension }, [])
  | some document =>
    match config.importMapUrl.or base with
    | none => .error .missingBase
    | some place =>
      match ImportMap.normalize document place with
      | .error reason => .error (.importMap reason)
      | .ok (importMap, diagnostics) =>
        .ok ({ importMap := some importMap, extension := config.extension }, diagnostics)

end ResolverConfig

end ModuleSystem
