import ModuleSystem.Json.Basic
import ModuleSystem.Number.Text
import ModuleSystem.Text.Affix

/-!
# Writing JSON

`Json.compact` writes a value without any blanks. `Json.pretty` puts every item and every member of
a container on a line of its own, indented by two blanks for each container around it. Strings
escape quotes, backslashes and control characters only.
-/

namespace ModuleSystem.Json

/-- A character as it is written in a JSON string. -/
def escapeChar (c : Char) : List Char :=
  if c == '"' || c == '\\' then ['\\', c]
  else if c == '\x08' then ['\\', 'b']
  else if c == '\x0c' then ['\\', 'f']
  else if c == '\n' then ['\\', 'n']
  else if c == '\r' then ['\\', 'r']
  else if c == '\t' then ['\\', 't']
  else if c.toNat < 0x20 then
    ['\\', 'u', '0', '0'] ++ (if c.toNat < 16 then ['0'] else []) ++ Nat.toDigits 16 c.toNat
  else [c]

/-- A string as it is written in JSON. -/
def stringText (s : String) : List Char :=
  '"' :: s.toList.flatMap escapeChar ++ ['"']

/-- A value that is no container as it is written; a number that is not finite is null. -/
def scalarText : Json → List Char
  | bool b => (toString b).toList
  | int n => (toString n).toList
  | number x => (x.documentText?.getD "null").toList
  | string s => stringText s
  | _ => "null".toList

mutual

def compactText : Json → List Char
  | array items => '[' :: Text.join [','] (compactItems items) ++ [']']
  | object members => '\x7b' :: Text.join [','] (compactMembers members) ++ ['\x7d']
  | other => scalarText other

def compactItems : List Json → List (List Char)
  | [] => []
  | item :: rest => compactText item :: compactItems rest

def compactMembers : List (String × Json) → List (List Char)
  | [] => []
  | (key, value) :: rest => (stringText key ++ ':' :: compactText value) :: compactMembers rest

end

/-- A value written without blanks. -/
def compact (value : Json) : String :=
  String.ofList (compactText value)

/-- The parts of a container, each on a line of its own, between its marks. -/
def lines (depth : Nat) (first last : Char) (parts : List (List Char)) : List Char :=
  let newline (n : Nat) := '\n' :: List.replicate (2 * n) ' '
  match parts with
  | [] => [first, last]
  | _ =>
    first :: newline (depth + 1) ++ Text.join (',' :: newline (depth + 1)) parts
      ++ newline depth ++ [last]

mutual

def prettyText (depth : Nat) : Json → List Char
  | array items => lines depth '[' ']' (prettyItems (depth + 1) items)
  | object members => lines depth '\x7b' '\x7d' (prettyMembers (depth + 1) members)
  | other => scalarText other

def prettyItems (depth : Nat) : List Json → List (List Char)
  | [] => []
  | item :: rest => prettyText depth item :: prettyItems depth rest

def prettyMembers (depth : Nat) : List (String × Json) → List (List Char)
  | [] => []
  | (key, value) :: rest =>
    (stringText key ++ ':' :: ' ' :: prettyText depth value) :: prettyMembers depth rest

end

/-- A value written over several lines. -/
def pretty (value : Json) : String :=
  String.ofList (prettyText 0 value)

end ModuleSystem.Json
