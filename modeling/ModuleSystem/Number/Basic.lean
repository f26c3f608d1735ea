/-!
# Binary64 numbers

A number is finite, infinite or not a number. A finite one is a significand of at most 53 bits
times a power of two, from `2 ^ (-1074)` on; the significand has all 53 bits unless the power is the
least. So each number has one form, zero apart, which has a sign like every other number, and two
numbers are the same exactly when their forms are equal.
-/

namespace ModuleSystem

/-- Whether `significand * 2 ^ (exponent - 1074)` is in the form of a binary64 number. -/
def Number.IsNormal (significand exponent : Nat) : Prop :=
  significand < Nat.pow 2 53 ∧ (exponent = 0 ∨ Nat.pow 2 52 ≤ significand) ∧ exponent ≤ 2045

instance (significand exponent : Nat) : Decidable (Number.IsNormal significand exponent) :=
  inferInstanceAs (Decidable (_ ∧ _ ∧ _))

/-- A binary64 number. The finite one with significand `m` and exponent `e` has the absolute value
`m * 2 ^ (e - 1074)`. -/
inductive Number where
  | finite (negative : Bool) (significand exponent : Nat)
      (normal : Number.IsNormal significand exponent)
  | infinite (negative : Bool)
  | nan
deriving DecidableEq

namespace Number

/-- Zero of the given sign. -/
def zero (negative : Bool) : Number :=
  .finite negative 0 0 ⟨by decide, Or.inl rfl, by decide⟩

/-- The finite number with the given significand and exponent; an infinite one where they are not
in the form of a number. -/
def ofParts (negative : Bool) (significand exponent : Nat) : Number :=
  if normal : IsNormal significand exponent then .finite negative significand exponent normal
  else .infinite negative

/-- The quotient `n / d` rounded to the nearest natural number, a tie to the even one. -/
def roundedQuotient (n d : Nat) : Nat :=
  let q := n / d
  let twice := 2 * (n % d)
  if twice > d ∨ (twice = d ∧ q % 2 = 1) then q + 1 else q

/-- The number nearest to `n / d`, of two nearest the one with the even significand; `d` is not
zero. -/
def ofRatio (negative : Bool) (n d : Nat) : Number :=
  if n = 0 then zero negative
  else
    -- `n / d` in units of the least positive number, and the exponent that leaves 53 bits of it
    let units := n * Nat.pow 2 1074
    let exponent := (units / d).log2 - 52
    let significand := roundedQuotient units (d * Nat.pow 2 exponent)
    if significand = Nat.pow 2 53 then ofParts negative (Nat.pow 2 52) (exponent + 1)
    else ofParts negative significand exponent

/-- The integer, or the number nearest to it if it has more than 53 bits. -/
def ofInt (n : Int) : Number :=
  ofRatio (n < 0) n.natAbs 1

end Number

end ModuleSystem
