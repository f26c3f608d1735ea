import ModuleSystem.Number.Basic
import ModuleSystem.Loader.Error
import ModuleSystem.Text.Affix

/-!
# Source texts of modules

A source text consists of lines of words, which spaces separate. A line asks for a dependency, gives
the value of an export, an integer of 32 bits, or says what the body runs.
-/

namespace ModuleSystem.Script

open Loader

/-- A line of a source text. -/
inductive Line where
  | blank
  | dependency (specifier : String)
  | publish (name : String) (value : Number)
  | run (text : String)
deriving DecidableEq

/-- The words of a text. -/
def words (text : List Char) : List String :=
  ((Text.fields (· == ' ') text).filter fun word => !word.isEmpty).map String.ofList

/-- The number that digits stand for; nothing if there are none, or something else among them. -/
def natural? (digits : List Char) : Option Nat :=
  if digits.isEmpty || !digits.all Char.isDigit then none
  else some (digits.foldl (fun n c => 10 * n + (c.toNat - '0'.toNat)) 0)

/-- The integer that a word is, which may begin with a sign. -/
def integer? (word : String) : Option Int :=
  match word.toList with
  | '-' :: digits => (natural? digits).map fun n => -(n : Int)
  | '+' :: digits => (natural? digits).map fun n => (n : Int)
  | digits => (natural? digits).map fun n => (n : Int)

/-- The integer of 32 bits that a word is. -/
def integer32? (word : String) : Option Int :=
  (integer? word).filter fun n => -2147483648 ≤ n ∧ n < 2147483648

/-- Reads the line of the given number. -/
def Line.read (number : Nat) (text : List Char) : Except HostError Line :=
  let place := "line " ++ toString number
  match words text with
  | [] => .ok .blank
  | ["import", specifier] => .ok (.dependency specifier)
  | ["export", name, word] =>
    match integer32? word with
    | some n => .ok (.publish name (.ofInt n))
    | none => .error { message := place, causes := [word ++ " is not an integer"] }
  | ["run", text] => .ok (.run text)
  | _ => .error { message := place ++ ": unexpected line" }

/-- The lines of a text with their numbers, which count from one. -/
def numberedLines (text : String) : List (Nat × List Char) :=
  (Text.fields (· == '\n') text.toList).mapIdx fun i line => (i + 1, line)

end ModuleSystem.Script
