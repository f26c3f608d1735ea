/-!
# Percent encoding

A URL is written in ASCII. A character that its part of a URL cannot hold is written as its UTF-8
bytes, each as `%` and two upper-case hexadecimal digits. Every part has a set of ASCII characters
that it escapes; characters outside ASCII are escaped everywhere.
-/

namespace ModuleSystem.Url

/-- The hexadecimal digit of a value below 16, with letters from `letter` on. -/
def hexDigitFrom (letter : Nat) (n : Nat) : Char :=
  if n < 10 then Char.ofNat (48 + n) else Char.ofNat (letter + (n - 10))

/-- The lower-case hexadecimal digits of a number, without leading zeros. -/
def hexDigits (n : Nat) : List Char :=
  (Nat.toDigits 16 n)

/-- A byte written as `%` and two upper-case hexadecimal digits. -/
def percentByte (b : UInt8) : List Char :=
  ['%', hexDigitFrom 65 (b.toNat / 16), hexDigitFrom 65 (b.toNat % 16)]

/-- The C0 control characters and the delete character. -/
def isControl (c : Char) : Bool :=
  c.toNat < 0x20 || c.toNat == 0x7f

/-- What a fragment escapes. -/
def inFragmentSet (c : Char) : Bool :=
  isControl c || [' ', '"', '<', '>', '\x60'].contains c

/-- What a path escapes. -/
def inPathSet (c : Char) : Bool :=
  inFragmentSet c || ['#', '?', '\x7b', '\x7d'].contains c

/-- What a user name or a password escapes. -/
def inUserinfoSet (c : Char) : Bool :=
  inPathSet c || ['/', ':', ';', '=', '@', '[', '\\', ']', '^', '|'].contains c

/-- What a query escapes; a special scheme also escapes the apostrophe. -/
def inQuerySet (special : Bool) (c : Char) : Bool :=
  isControl c || [' ', '"', '#', '<', '>'].contains c || (special && c == '\x27')

/-- A character as it is written where `escaped` characters have to be escaped. -/
def percentEncodeChar (escaped : Char → Bool) (c : Char) : List Char :=
  if escaped c || 0x7f < c.toNat then (String.utf8EncodeChar c).flatMap percentByte else [c]

/-- A text as it is written where `escaped` characters have to be escaped. -/
def percentEncode (escaped : Char → Bool) (s : List Char) : List Char :=
  s.flatMap (percentEncodeChar escaped)

/-- The value of a hexadecimal digit. -/
def hexValue? (c : Char) : Option Nat :=
  let n := c.toNat
  if 48 ≤ n && n ≤ 57 then some (n - 48)
  else if 65 ≤ n && n ≤ 70 then some (n - 55)
  else if 97 ≤ n && n ≤ 102 then some (n - 87)
  else none

/-- The bytes of a text in which each `%` before two hexadecimal digits stands for one byte. -/
def percentDecode : List Char → List UInt8
  | '%' :: a :: b :: rest =>
    match hexValue? a, hexValue? b with
    | some x, some y => UInt8.ofNat (16 * x + y) :: percentDecode rest
    | _, _ => 37 :: percentDecode (a :: b :: rest)
  | c :: rest => String.utf8EncodeChar c ++ percentDecode rest
  | [] => []

end ModuleSystem.Url
