/-!
# Prefixes, suffixes and fields of text

Text is compared and cut as a list of characters. This file holds the tests and cuts that the
rest of the library shares: whether one string begins or ends another, the fields between two
separators, and the text joined back from them.
-/

namespace ModuleSystem.Text

/-- Whether `start` begins `s`. -/
def isPrefix (start s : String) : Bool :=
  start.toList.isPrefixOf s.toList

/-- Whether the last character of `s` is `c`. -/
def endsWithChar (s : String) (c : Char) : Bool :=
  s.toList.getLast? == some c

/-- What follows the first `start.length` characters of `s`. -/
def dropPrefix (start s : String) : String :=
  String.ofList (s.toList.drop start.toList.length)

/-- The fields of a text between the characters that satisfy `sep`; there is always one more field
than there are separators. -/
def fields (sep : Char → Bool) : List Char → List (List Char)
  | [] => [[]]
  | c :: rest =>
    if sep c then [] :: fields sep rest
    else
      match fields sep rest with
      | [] => [[c]]
      | field :: others => (c :: field) :: others

/-- The pieces with `glue` between two neighbours. -/
def join (glue : List Char) : List (List Char) → List Char
  | [] => []
  | [piece] => piece
  | piece :: others => piece ++ glue ++ join glue others

/-- What follows the last character of `s` that satisfies `p`, or all of `s` without one. -/
def afterLast (p : Char → Bool) (s : List Char) : List Char :=
  (s.reverse.takeWhile fun c => !p c).reverse

theorem fields_ne_nil (sep : Char → Bool) (s : List Char) : fields sep s ≠ [] := by
  induction s with
  | nil => simp [fields]
  | cons c rest ih =>
    by_cases h : sep c
    · simp [fields, h]
    · cases hf : fields sep rest with
      | nil => exact absurd hf ih
      | cons field others => simp [fields, h, hf]

end ModuleSystem.Text
