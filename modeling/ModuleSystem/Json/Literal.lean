import ModuleSystem.Json.Basic
import ModuleSystem.Number.Decimal

/-!
# Literals

A string or a number in a JSON text is a literal. To cut a literal out of its text is one thing, to
tell its value another: an escape may name half of a surrogate pair, which is not a character, and a
number may be beyond all numbers.
-/

namespace ModuleSystem.Json

/-- Why a text is not a JSON value. -/
inductive ReadError where
  | unexpectedEnd
  | unexpectedCharacter (c : Char)
  | unexpectedToken
  | trailingText
  | controlCharacter
  | invalidEscape
  | loneSurrogate
  | numberOutOfRange
  | tooDeep
deriving DecidableEq, Repr

/-- The reason in words. -/
def ReadError.message : ReadError → String
  | unexpectedEnd => "the text ends within a value"
  | unexpectedCharacter c => "no value begins with " ++ c.toString
  | unexpectedToken => "a value, a key or a separator is missing"
  | trailingText => "there is text behind the value"
  | controlCharacter => "a string holds a control character"
  | invalidEscape => "a string holds an invalid escape"
  | loneSurrogate => "a string holds half of a surrogate pair"
  | numberOutOfRange => "a number is out of range"
  | tooDeep => "the containers are nested too deeply"

/-! ### Strings -/

/-- A string literal: the code points it names, halves of surrogate pairs among them. -/
structure StringLiteral where
  points : List Nat
deriving DecidableEq

def hexDigit? (c : Char) : Option Nat :=
  if c.isDigit then some (c.toNat - 48)
  else if 'a' ≤ c ∧ c ≤ 'f' then some (c.toNat - 87)
  else if 'A' ≤ c ∧ c ≤ 'F' then some (c.toNat - 55)
  else none

/-- The value of four hexadecimal digits. -/
def codeUnit? (a b c d : Char) : Option Nat :=
  [a, b, c, d].foldlM (fun n x => (hexDigit? x).map (16 * n + ·)) 0

/-- The character that a letter behind a backslash stands for. -/
def unescape? : Char → Option Char
  | '"' => some '"'
  | '\\' => some '\\'
  | '/' => some '/'
  | 'b' => some '\x08'
  | 'f' => some '\x0c'
  | 'n' => some '\n'
  | 'r' => some '\r'
  | 't' => some '\t'
  | _ => none

/-- The rest of a string literal behind its opening quote: the code points that it names, after
`done` in reverse, and the text behind its closing quote. -/
def readString (done : List Nat) : List Char → Except ReadError (StringLiteral × List Char)
  | [] => .error .unexpectedEnd
  | '"' :: rest => .ok ({ points := done.reverse }, rest)
  | '\\' :: 'u' :: a :: b :: c :: d :: rest =>
    match codeUnit? a b c d with
    | none => .error .invalidEscape
    | some unit => readString (unit :: done) rest
  | '\\' :: c :: rest =>
    match unescape? c with
    | none => .error .invalidEscape
    | some c => readString (c.toNat :: done) rest
  | c :: rest =>
    if c.toNat < 0x20 then .error .controlCharacter else readString (c.toNat :: done) rest

/-- Whether a code point is the first half of a surrogate pair. -/
def isHighSurrogate (n : Nat) : Bool :=
  0xD800 ≤ n && n < 0xDC00

/-- Whether a code point is the second half of a surrogate pair. -/
def isLowSurrogate (n : Nat) : Bool :=
  0xDC00 ≤ n && n < 0xE000

/-- The characters of code points, the two halves of a surrogate pair being one. -/
def characters : List Nat → Except ReadError (List Char)
  | [] => .ok []
  | n :: rest =>
    if isLowSurrogate n then .error .loneSurrogate
    else if isHighSurrogate n then
      match rest with
      | low :: rest =>
        if isLowSurrogate low then
          (characters rest).map
            (Char.ofNat (0x10000 + (n - 0xD800) * 0x400 + (low - 0xDC00)) :: ·)
        else .error .loneSurrogate
      | [] => .error .loneSurrogate
    else (characters rest).map (Char.ofNat n :: ·)

/-- The string that a literal stands for. -/
def StringLiteral.value (s : StringLiteral) : Except ReadError String :=
  (characters s.points).map String.ofList

/-! ### Numbers -/

/-- A number literal: the digits before its point, those behind it if it has one, and its exponent
if it has one. -/
structure NumberLiteral where
  negative : Bool
  whole : List Char
  fraction : Option (List Char) := none
  exponent : Option Int := none
deriving DecidableEq

def digitsValue (digits : List Char) : Nat :=
  digits.foldl (fun n c => 10 * n + (c.toNat - 48)) 0

/-- The digits that a text begins with, of which there has to be one, and what follows them. -/
def readDigits (s : List Char) : Except ReadError (List Char × List Char) :=
  match s.takeWhile Char.isDigit, s.dropWhile Char.isDigit with
  | [], [] => .error .unexpectedEnd
  | [], c :: _ => .error (.unexpectedCharacter c)
  | digits, rest => .ok (digits, rest)

/-- The exponent that a text begins with, if any, and what follows it. -/
def readExponent (s : List Char) : Except ReadError (Option Int × List Char) :=
  match s with
  | c :: rest =>
    if c == 'e' || c == 'E' then do
      let minus := rest.head? == some '-'
      let signed := minus || rest.head? == some '+'
      let (digits, rest) ← readDigits (if signed then rest.drop 1 else rest)
      let n : Int := digitsValue digits
      return (some (if minus then -n else n), rest)
    else .ok (none, s)
  | [] => .ok (none, s)

/-- The number literal that a text begins with, and what follows it. -/
def readNumber (s : List Char) : Except ReadError (NumberLiteral × List Char) := do
  let negative := s.head? == some '-'
  let s := if negative then s.drop 1 else s
  let (whole, s) ← match s with
    | '0' :: rest => pure (['0'], rest)
    | _ => readDigits s
  let (fraction, s) ← match s with
    | '.' :: rest => (readDigits rest).map fun (digits, rest) => (some digits, rest)
    | _ => pure (none, s)
  let (exponent, s) ← readExponent s
  return ({ negative, whole, fraction, exponent }, s)

/-- The value of a number literal. A whole number of at most 64 bits is kept as such, and all others
are numbers, minus zero among them. -/
def NumberLiteral.value (x : NumberLiteral) : Except ReadError Json :=
  let n := digitsValue x.whole
  let isWhole := x.fraction.isNone && x.exponent.isNone
  if isWhole && x.negative && 0 < n && n ≤ Nat.pow 2 63 then .ok (.int (-n))
  else if isWhole && !x.negative && n < Nat.pow 2 64 then .ok (.int n)
  else
    match Number.ofDecimal? x.negative x.whole (x.fraction.getD []) (x.exponent.getD 0) with
    | some y => .ok (.number y)
    | none => .error .numberOutOfRange

end ModuleSystem.Json
