import ModuleSystem.Json.Literal

/-!
# Outlines

The outline of a JSON text is its value with every literal as it is written. Every text of the
grammar has one, however deep its containers are nested and whatever its literals stand for. To find
it, the text is cut into tokens, and the tokens are put together with a list of the containers that
are still open. The grammar is the strict one: no comments, no trailing commas, no leading zeros,
and nothing but blanks after the value.
-/

namespace ModuleSystem.Json

/-- A JSON value whose literals have not been looked into. -/
inductive Outline where
  | null
  | bool (b : Bool)
  | number (literal : NumberLiteral)
  | string (literal : StringLiteral)
  | array (items : List Outline)
  | object (members : List (StringLiteral × Outline))

/-- What the value of an outline is, with its article, as messages name it. -/
def Outline.typeName : Outline → String
  | null => "null"
  | bool _ => "a boolean"
  | number _ => "a number"
  | string _ => "a string"
  | array _ => "an array"
  | object _ => "an object"

/-! ### Tokens -/

/-- A token: a mark, or a value that holds no other. -/
inductive Token where
  | openArray
  | closeArray
  | openObject
  | closeObject
  | comma
  | colon
  | scalar (value : Outline)

def isBlank (c : Char) : Bool :=
  c == ' ' || c == '\t' || c == '\n' || c == '\r'

/-- The token that a text without blanks at its front begins with, and what follows it. -/
def readToken (c : Char) (rest : List Char) : Except ReadError (Token × List Char) :=
  match c with
  | '[' => .ok (.openArray, rest)
  | ']' => .ok (.closeArray, rest)
  | '\x7b' => .ok (.openObject, rest)
  | '\x7d' => .ok (.closeObject, rest)
  | ',' => .ok (.comma, rest)
  | ':' => .ok (.colon, rest)
  | '"' => (readString [] rest).map fun (s, rest) => (.scalar (.string s), rest)
  | _ =>
    let s := c :: rest
    let word (w : String) (value : Outline) : Option (Token × List Char) :=
      if w.toList.isPrefixOf s then some (.scalar value, s.drop w.length) else none
    match word "null" .null <|> word "true" (.bool true) <|> word "false" (.bool false) with
    | some found => .ok found
    | none =>
      if c.isDigit || c == '-' then
        (readNumber s).map fun (x, rest) => (.scalar (.number x), rest)
      else .error (.unexpectedCharacter c)

/-- The tokens of a text of at most `n` characters; each of them has one at least. -/
def tokens (n : Nat) (s : List Char) : Except ReadError (List Token) :=
  match n, s.dropWhile isBlank with
  | _, [] => .ok []
  | 0, c :: _ => .error (.unexpectedCharacter c)
  | n + 1, c :: rest => do
    let (token, rest) ← readToken c rest
    return token :: (← tokens n rest)

/-! ### Containers -/

/-- A container that is still open, with what it holds so far, the latest first; an object also has
the key of the member to come. -/
inductive Container where
  | array (items : List Outline)
  | object (members : List (StringLiteral × Outline)) (key : StringLiteral)

/-- What may follow. -/
inductive Expected where
  | value
  | valueOrClose
  | key
  | keyOrClose
  | colon
  | separator
  | nothing (result : Outline)

/-- The state after a value is complete. -/
def deliver (value : Outline) : List Container → List Container × Expected
  | [] => ([], .nothing value)
  | .array items :: others => (.array (value :: items) :: others, .separator)
  | .object members key :: others => (.object ((key, value) :: members) key :: others, .separator)

/-- The state after one more token. -/
def accept (containers : List Container) (expected : Expected) (token : Token) :
    Except ReadError (List Container × Expected) :=
  match expected, token, containers with
  | .nothing _, _, _ => .error .trailingText
  | .value, .openArray, _ | .valueOrClose, .openArray, _ =>
    .ok (.array [] :: containers, .valueOrClose)
  | .value, .openObject, _ | .valueOrClose, .openObject, _ =>
    .ok (.object [] { points := [] } :: containers, .keyOrClose)
  | .value, .scalar v, _ | .valueOrClose, .scalar v, _ => .ok (deliver v containers)
  | .valueOrClose, .closeArray, .array items :: others
  | .separator, .closeArray, .array items :: others => .ok (deliver (.array items.reverse) others)
  | .keyOrClose, .closeObject, .object members _ :: others
  | .separator, .closeObject, .object members _ :: others =>
    .ok (deliver (.object members.reverse) others)
  | .key, .scalar (.string key), .object members _ :: others
  | .keyOrClose, .scalar (.string key), .object members _ :: others =>
    .ok (.object members key :: others, .colon)
  | .colon, .colon, _ => .ok (containers, .value)
  | .separator, .comma, .array _ :: _ => .ok (containers, .value)
  | .separator, .comma, .object _ _ :: _ => .ok (containers, .key)
  | _, _, _ => .error .unexpectedToken

/-- The outline of a JSON text. -/
def outline (text : String) : Except ReadError Outline := do
  let s := text.toList
  let (_, expected) ← (← tokens s.length s).foldlM
    (fun (containers, expected) token => accept containers expected token) ([], Expected.value)
  match expected with
  | .nothing result => return result
  | _ => throw .unexpectedEnd

end ModuleSystem.Json
