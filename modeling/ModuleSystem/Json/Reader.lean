import ModuleSystem.Json.Outline

/-!
# Reading JSON

A value is read from the outline of its text. Its strings may not hold half of a surrogate pair, its
numbers have to be within the range of binary64, and at most `maxDepth` containers may stand inside
each other. What is left out of an outline does not have to meet these conditions.
-/

namespace ModuleSystem.Json

/-- How many containers may stand inside each other. -/
def maxDepth : Nat := 127

/-- The keys of members, read; their values stay as they are. -/
def readKeys : List (StringLiteral × Outline) → Except ReadError (List (String × Outline))
  | [] => .ok []
  | (key, value) :: rest => do return (← key.value, value) :: (← readKeys rest)

mutual

/-- The value of an outline, of which at most `depth` containers stand inside each other. -/
def Outline.value (depth : Nat) : Outline → Except ReadError Json
  | .null => .ok .null
  | .bool b => .ok (.bool b)
  | .number literal => literal.value
  | .string literal => literal.value.map .string
  | .array items =>
    match depth with
    | 0 => .error .tooDeep
    | depth + 1 => (readItems depth items).map .array
  | .object members =>
    match depth with
    | 0 => .error .tooDeep
    | depth + 1 => (readMembers depth members).map .object

/-- The values of items. -/
def readItems (depth : Nat) : List Outline → Except ReadError (List Json)
  | [] => .ok []
  | item :: rest => do return (← item.value depth) :: (← readItems depth rest)

/-- The values of members, with their keys. -/
def readMembers (depth : Nat) :
    List (StringLiteral × Outline) → Except ReadError (List (String × Json))
  | [] => .ok []
  | (key, value) :: rest => do
    return (← key.value, ← value.value depth) :: (← readMembers depth rest)

end

/-- Reads a JSON value; the members of objects stay in the order of the text. -/
def read (text : String) : Except ReadError Json := do
  (← outline text).value maxDepth

end ModuleSystem.Json
