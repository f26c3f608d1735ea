import ModuleSystem.Number.Shortest

/-!
# Numbers as text

The digits of a number are those of its shortest decimal. There are two ways to lay them out. The
*plain* one never uses an exponent and writes whole numbers without a point; of two equally near
decimals it takes the greater. The *document* one, for finite numbers only, always shows a point or
an exponent, and uses the exponent from `10 ^ 16` on and below `10 ^ (-5)`; of two equally near
decimals it takes the even one.
-/

namespace ModuleSystem.Number

def sign (negative : Bool) : List Char :=
  if negative then ['-'] else []

/-- Digits with a point after the first `n` of them, padded with zeros; no point follows the last
digit. -/
def positional (digits : List Char) (n : Int) : List Char :=
  if n ≤ 0 then '0' :: '.' :: (List.replicate (-n).toNat '0' ++ digits)
  else if digits.length ≤ n.toNat then digits ++ List.replicate (n.toNat - digits.length) '0'
  else digits.take n.toNat ++ '.' :: digits.drop n.toNat

/-- The digits of a decimal, and how many of them stand before the point. -/
def layout (decimal : Nat × Int) : List Char × Int :=
  let text := Nat.toDigits 10 decimal.1
  (text, text.length + decimal.2)

/-- A decimal in the plain layout. -/
def plainDecimal (decimal : Nat × Int) : List Char :=
  let (digits, point) := layout decimal
  positional digits point

/-- A decimal in the layout of documents. -/
def documentDecimal (decimal : Nat × Int) : List Char :=
  let (digits, point) := layout decimal
  if point ≤ -5 ∨ 16 < point then
    let power := point - 1
    let mantissa := positional digits 1
    mantissa ++ 'e' :: (if power < 0 then '-' else '+') :: Nat.toDigits 10 power.natAbs
  else if digits.length ≤ point then positional digits point ++ ['.', '0']
  else positional digits point

/-- The plain text of a number. -/
def plainText : Number → String
  | finite negative significand exponent _ =>
    let body :=
      if significand = 0 then ['0'] else plainDecimal (shortest .greater significand exponent)
    String.ofList (sign negative ++ body)
  | infinite negative => String.ofList (sign negative ++ ['i', 'n', 'f'])
  | nan => "NaN"

/-- The document text of a number; nothing for one that is not finite. -/
def documentText? : Number → Option String
  | finite negative significand exponent _ =>
    let body :=
      if significand = 0 then ['0', '.', '0']
      else documentDecimal (shortest .even significand exponent)
    some (String.ofList (sign negative ++ body))
  | infinite _ => none
  | nan => none

end ModuleSystem.Number
