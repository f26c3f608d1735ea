import ModuleSystem.Text.Unseen

/-!
# Quoted text

Messages show a string between double quotes, so that its ends and its blanks can be seen. Quotes
and backslashes are written after a backslash, line breaks, tabs and the null character by a
letter, and every other unseen character by its number.
-/

namespace ModuleSystem.Text

/-- A character as it is written inside quotes. -/
def quoteChar (c : Char) : List Char :=
  if c == '\x00' then ['\\', '0']
  else if c == '\t' then ['\\', 't']
  else if c == '\r' then ['\\', 'r']
  else if c == '\n' then ['\\', 'n']
  else if c == '"' || c == '\\' then ['\\', c]
  else if isUnseen c then ['\\', 'u', '\x7b'] ++ Nat.toDigits 16 c.toNat ++ ['\x7d']
  else [c]

/-- A string between double quotes. -/
def quote (s : String) : String :=
  String.ofList ('"' :: s.toList.flatMap quoteChar ++ ['"'])

end ModuleSystem.Text
