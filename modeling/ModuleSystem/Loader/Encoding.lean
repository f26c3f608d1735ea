import ModuleSystem.Json.Basic
import ModuleSystem.Loader.Store

/-!
# Values, errors and registries as JSON

Values are encoded for a reader who does not share the store. What JSON has no word for is an object
whose `$type` says what it is; a value of the host loses its identity.

Namespaces may hold each other, and themselves. A namespace is written out where it is met first,
with a number, and every later place only refers to that number. The numbers count the namespaces in
the order in which they are met: depth first, and by name within a namespace. Each encoding has its
own numbers.
-/

namespace ModuleSystem.Loader

/-! ### Values -/

/-- An object that names its type. -/
def typedJson (type : String) (members : List (String × Json)) : Json :=
  .object (("$type", .string type) :: members)

/-- A number as JSON; one that is not finite is written out in words. -/
def numberJson : Number → Json
  | .nan => typedJson "number" [("value", .string "NaN")]
  | .infinite false => typedJson "number" [("value", .string "Infinity")]
  | .infinite true => typedJson "number" [("value", .string "-Infinity")]
  | x => .number x

/-- A namespace that has been met before. -/
def referenceJson (number : Nat) : Json :=
  .object [("$ref", .int number)]

/-- A namespace that is written out. -/
def namespaceJson (number : Nat) (members : List (String × Json)) : Json :=
  .object [("$namespace", .int number), ("exports", .object members)]

/-- Encodes the values of bindings one after the other. -/
def encodeMembers (encode : Value → List RecordId → Json × List RecordId) :
    Bindings → List RecordId → List (String × Json) × List RecordId
  | [], met => ([], met)
  | (name, value) :: rest, met =>
    let (json, met) := encode value met
    let (members, met) := encodeMembers encode rest met
    ((name, json) :: members, met)

/-- Encodes a value; `met` are the namespaces written out so far, in order. At most `depth`
namespaces are written out within each other, and null stands for those that lie deeper. -/
def encodeValue (bindings : RecordId → Bindings) (depth : Nat) (value : Value)
    (met : List RecordId) : Json × List RecordId :=
  match value with
  | .undefined => (typedJson "undefined" [], met)
  | .null => (.null, met)
  | .bool b => (.bool b, met)
  | .number x => (numberJson x, met)
  | .string s => (.string s, met)
  | .host _ => (typedJson "host" [], met)
  | .exports module =>
    match met.idxOf? module with
    | some number => (referenceJson number, met)
    | none =>
      match depth with
      | 0 => (.null, met)
      | depth + 1 =>
        let (members, after) :=
          encodeMembers (encodeValue bindings depth) (bindings module) (met ++ [module])
        (namespaceJson met.length members, after)

/-- A value as JSON. Namespaces that lie within each other all differ, and a number that no record
has stands for an empty namespace, so the depth suffices. -/
def Store.valueJson {C : Type} (s : Store C) (value : Value) : Json :=
  (encodeValue s.bindings (s.records.size + 1) value []).1

/-! ### Errors and registries -/

/-- An error as JSON. -/
def LoaderError.toJson (e : LoaderError) : Json :=
  .object [("causes", .ofStrings e.causes), ("kind", .string e.kind),
    ("message", .string e.message),
    ("module", .ofOption (e.module?.map fun u => .string u.href)),
    ("referrer", .ofOption (e.referrer?.map fun u => .string u.href))]

/-- A registered module as JSON, with its error if it has failed. -/
def entryJson (url : Url) (state : ModuleState) : Json :=
  let error := state.error?.map fun e => ("error", e.toJson)
  .object (error.toList ++ [("state", .string state.name), ("url", .string url.href)])

/-- The registered modules as JSON. -/
def Store.registryJson {C : Type} (s : Store C) : Json :=
  .array (s.entries.map fun (url, state) => entryJson url state)

end ModuleSystem.Loader
