import ModuleSystem.Number.Basic

/-!
# Shortest decimals

A positive binary64 number is written with the decimal that is a multiple of the greatest power of
ten among those that round to the number, and of several such the nearest; which of two equally near
ones that is, is up to the format. To compare without fractions everything is counted in units of
`2 ^ (-1076) * 10 ^ (-1074)`; every binary64 number is a multiple of `10 ^ (-1074)`, so the search
always ends.
-/

namespace ModuleSystem.Number

/-- Which of two equally near decimals is taken. -/
inductive Tie where
  | even
  | greater
deriving DecidableEq

/-- Whether a tie between a multiple and the next one goes to the next one. -/
def Tie.goesUp : Tie → Nat → Bool
  | even, multiple => multiple % 2 == 1
  | greater, _ => true

/-- The number `significand * 2 ^ (exponent - 1074)`, times four, in units of the search. -/
def fourfold (significand exponent : Nat) : Nat :=
  significand * Nat.pow 2 exponent * Nat.pow 10 1074 * 4

/-- The ends of the interval of reals that round to a positive number, in units. The gap below a
power of two is half as wide as the gap above it. -/
def roundingInterval (significand exponent : Nat) : Nat × Nat :=
  let quarter := Nat.pow 2 exponent * Nat.pow 10 1074
  let below := if significand = Nat.pow 2 52 ∧ exponent ≠ 0 then quarter else 2 * quarter
  (fourfold significand exponent - below, fourfold significand exponent + 2 * quarter)

/-- Whether a real, given in units, rounds to the number; the ends of the interval do if the
significand is even. -/
def roundsTo (significand exponent : Nat) (units : Nat) : Bool :=
  let (low, high) := roundingInterval significand exponent
  if significand % 2 = 0 then low ≤ units && units ≤ high else low < units && units < high

/-- The nearest of the multiples of a power of ten around the number that round to it. -/
def hit? (tie : Tie) (significand exponent : Nat) (step : Nat) : Option Nat :=
  let value := fourfold significand exponent
  let floor := value / step
  let rest := value % step
  let upFirst := 2 * rest > step ∨ (2 * rest = step ∧ tie.goesUp floor)
  let candidates := if upFirst then [floor + 1, floor] else [floor, floor + 1]
  candidates.find? fun c => roundsTo significand exponent (c * step)

/-- The search from the power of ten `10 ^ (n - 1074)` downwards: `hit` tells the digits at the
power of ten `10 ^ (n - 1074)`, if there are some, and `least` are those at the least power. -/
def search (hit : Nat → Option Nat) (least : Nat) : Nat → Nat × Int
  | 0 => (least, -1074)
  | n + 1 =>
    match hit (n + 1) with
    | some digits => (digits, (n + 1 : Int) - 1074)
    | none => search hit least n

/-- The exponent of a power of ten that is greater than `2 ^ bits`, as `30103 / 100000` is greater
than the logarithm of two. -/
def powerAbove (bits : Nat) : Nat :=
  bits * 30103 / 100000 + 1

/-- The digits and the power of ten of the decimal that a positive number is written with. What
rounds to the number is less than twice as great, and so is a power of ten with a multiple that
does. -/
def shortest (tie : Tie) (significand exponent : Nat) : Nat × Int :=
  search (fun n => hit? tie significand exponent (Nat.pow 2 1076 * Nat.pow 10 n))
    (fourfold significand exponent / Nat.pow 2 1076)
    (powerAbove ((fourfold significand exponent).log2 + 2 - 1076))

end ModuleSystem.Number
