import ModuleSystem.Number.Basic
import ModuleSystem.Table

/-!
# JSON values

Whole numbers are kept apart from the others, and an object keeps its members in the order they
were given in. `Json.sorted` brings every object of a value into the order of its keys' bytes,
where the last of several members with one key is kept.
-/

namespace ModuleSystem

/-- A JSON value. -/
inductive Json where
  | null
  | bool (b : Bool)
  | int (n : Int)
  | number (x : Number)
  | string (s : String)
  | array (items : List Json)
  | object (members : List (String × Json))

namespace Json

/-- What a value is, with its article, as messages name it. -/
def typeName : Json → String
  | null => "null"
  | bool _ => "a boolean"
  | int _ => "a number"
  | number _ => "a number"
  | string _ => "a string"
  | array _ => "an array"
  | object _ => "an object"

/-- The object of the given members, sorted by their keys. -/
def ofMembers (members : List (String × Json)) : Json :=
  object (Table.ofList Table.byBytes members)

/-- The array of the given strings. -/
def ofStrings (strings : List String) : Json :=
  array (strings.map string)

/-- A value that may be missing, which is written as null. -/
def ofOption (value? : Option Json) : Json :=
  value?.getD null

/-- The member of an object under a key; null does not count as one. -/
def member? (key : String) : Json → Option Json
  | object members =>
    match Table.get? key members with
    | some null => none
    | found => found
  | _ => none

/-- The string that a value is. -/
def string? : Json → Option String
  | string s => some s
  | _ => none

mutual

/-- The value with the members of every object in it sorted by their keys. -/
def sorted : Json → Json
  | array items => array (sortedItems items)
  | object members => ofMembers (sortedMembers members)
  | other => other

def sortedItems : List Json → List Json
  | [] => []
  | item :: rest => sorted item :: sortedItems rest

def sortedMembers : List (String × Json) → List (String × Json)
  | [] => []
  | (key, value) :: rest => (key, sorted value) :: sortedMembers rest

end

end Json

end ModuleSystem
