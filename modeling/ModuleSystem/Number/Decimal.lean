import ModuleSystem.Number.Basic

/-!
# Reading decimals

A decimal is read in three steps: its digits become an integer of at most 64 bits, further digits
being dropped; the integer becomes the nearest number; and the number is multiplied or divided by a
power of ten, and rounded again. So the result can differ from the number nearest to the decimal. A
decimal beyond the greatest number is out of range; one too close to zero is zero.
-/

namespace ModuleSystem.Number

/-- Whether a number is zero. -/
def isZero : Number → Bool
  | finite _ significand _ _ => significand == 0
  | _ => false

/-- The product of two numbers, if both are finite. The sign is that of the first. -/
def scaledUp : Number → Number → Number
  | finite negative m e _, finite _ n f _ =>
    ofRatio negative (m * n * Nat.pow 2 (e + f)) (Nat.pow 2 2148)
  | x, _ => x

/-- The quotient of two numbers, if both are finite and the second is not zero. The sign is that of
the first. -/
def scaledDown : Number → Number → Number
  | finite negative m e _, finite _ n f _ => ofRatio negative (m * Nat.pow 2 e) (n * Nat.pow 2 f)
  | x, _ => x

/-- The number nearest to a power of ten. -/
def powerOfTen (n : Nat) : Number :=
  ofRatio false (Nat.pow 10 n) 1

/-- The exponent of the greatest power of ten that is a number. -/
def maxPower : Nat := 308

/-- A number divided by a power of ten; by the greatest one as often as it takes. -/
def divideByPower (x : Number) (n : Nat) : Number :=
  if n ≤ maxPower then scaledDown x (powerOfTen n)
  else if x.isZero then x
  else divideByPower (scaledDown x (powerOfTen maxPower)) (n - maxPower)
termination_by n
decreasing_by simp only [maxPower] at *; omega

/-- A number multiplied by a power of ten; nothing if the result is out of range. -/
def multiplyByPower? (x : Number) (n : Nat) : Option Number :=
  if x.isZero then some x
  else if maxPower < n then none
  else
    match scaledUp x (powerOfTen n) with
    | infinite _ => none
    | y => some y

/-- The integer that digits stand for when they follow those of `n`, up to the first that would make
it longer than 64 bits, and the digits from that one on. -/
def absorb (n : Nat) : List Char → Nat × List Char
  | [] => (n, [])
  | c :: rest =>
    let next := 10 * n + (c.toNat - 48)
    if next < Nat.pow 2 64 then absorb next rest else (n, c :: rest)

/-- The number that a decimal is read as: `whole` and `fraction` are the digits before and after its
point, and `power` is the power of ten behind them. Nothing if it is out of range. -/
def ofDecimal? (negative : Bool) (whole fraction : List Char) (power : Int) : Option Number :=
  let (n, dropped) := absorb 0 whole
  let (n, rest) := absorb n fraction
  let exponent := power + dropped.length - (fraction.length - rest.length : Nat)
  let x := ofRatio negative n 1
  if exponent < 0 then some (divideByPower x exponent.natAbs)
  else multiplyByPower? x exponent.natAbs

end ModuleSystem.Number
