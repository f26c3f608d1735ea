import Mathlib.Algebra.Field.Rat
import Mathlib.Algebra.GroupWithZero.Basic
import Mathlib.Algebra.Order.Field.Basic
import Mathlib.Data.List.TakeWhile
import Mathlib.Data.Nat.Cast.Order.Field
import Mathlib.Data.Rat.Cast.Order
import Mathlib.Tactic.FieldSimp
import Mathlib.Tactic.Linarith
import Mathlib.Tactic.NormNum
import Mathlib.Tactic.Ring
import ModuleSystem.Number.Text
import ModuleSystem.Proofs.Number.Shortest

/-!
# Numbers read back from their texts

The document text of a number is laid out in three ways. Read as a decimal it has the value of the
number's shortest decimal in each of them, so that numbers of the same text are equal.

## Main definitions

* `Number.decimalValue` : the value of a decimal.
* `Number.documentBody` : the document text of a number without its sign.
* `Number.isNumberChar` : the characters that numbers are written with.

## Main results

* `Number.decimalValue_documentBody` : the value of a text rounds to the number.
* `Number.documentText?_inj` : finite numbers with the same document text are equal.
-/

namespace ModuleSystem.Number

variable {m n e f : Nat} {c : Char} {digits text : List Char}

/-! ### Values of decimals -/

/-- The value of digits with a point among them, or without one. -/
def pointValue (text : List Char) : ℚ :=
  let whole := text.takeWhile (· != '.')
  let fraction := (text.dropWhile (· != '.')).drop 1
  Nat.ofDigitChars 10 (whole ++ fraction) 0 / 10 ^ fraction.length

/-- The power of ten behind a decimal. -/
def powerValue : List Char → Int
  | _ :: '-' :: digits => -Nat.ofDigitChars 10 digits 0
  | _ :: _ :: digits => Nat.ofDigitChars 10 digits 0
  | _ => 0

/-- The value of a decimal, which may have a power of ten behind it. -/
def decimalValue (text : List Char) : ℚ :=
  pointValue (text.takeWhile (· != 'e')) * 10 ^ powerValue (text.dropWhile (· != 'e'))

theorem takeWhile_ne_append {whole : List Char} (h : c ∉ whole) (rest : List Char) :
    (whole ++ c :: rest).takeWhile (· != c) = whole := by
  rw [List.takeWhile_append_of_pos fun d hd => by simpa using ne_of_mem_of_not_mem hd h]
  simp

theorem dropWhile_ne_append {whole : List Char} (h : c ∉ whole) (rest : List Char) :
    (whole ++ c :: rest).dropWhile (· != c) = c :: rest := by
  rw [List.dropWhile_append_of_pos fun d hd => by simpa using ne_of_mem_of_not_mem hd h]
  simp

theorem takeWhile_ne_of_not_mem {whole : List Char} (h : c ∉ whole) :
    whole.takeWhile (· != c) = whole :=
  List.takeWhile_eq_self_iff.2 fun d hd => by simpa using ne_of_mem_of_not_mem hd h

theorem dropWhile_ne_of_not_mem {whole : List Char} (h : c ∉ whole) :
    whole.dropWhile (· != c) = [] :=
  List.dropWhile_eq_nil_iff.2 fun d hd => by simpa using ne_of_mem_of_not_mem hd h

theorem pointValue_append {whole : List Char} (h : '.' ∉ whole) (fraction : List Char) :
    pointValue (whole ++ '.' :: fraction) =
      Nat.ofDigitChars 10 (whole ++ fraction) 0 / 10 ^ fraction.length := by
  rw [pointValue, takeWhile_ne_append h, dropWhile_ne_append h]
  rfl

theorem pointValue_of_not_mem (h : '.' ∉ digits) :
    pointValue digits = Nat.ofDigitChars 10 digits 0 := by
  rw [pointValue, takeWhile_ne_of_not_mem h, dropWhile_ne_of_not_mem h]
  simp

theorem decimalValue_of_not_mem (h : 'e' ∉ text) : decimalValue text = pointValue text := by
  rw [decimalValue, takeWhile_ne_of_not_mem h, dropWhile_ne_of_not_mem h]
  simp [powerValue]

theorem decimalValue_append (h : 'e' ∉ text) (power : List Char) :
    decimalValue (text ++ 'e' :: power) = pointValue text * 10 ^ powerValue ('e' :: power) := by
  rw [decimalValue, takeWhile_ne_append h, dropWhile_ne_append h]

/-! ### Layouts -/

/-- What follows a point is divided by as many tens. -/
theorem div_ten_pow (a : ℚ) {k : Nat} {i : Int} (h : i = -(k : Int)) : a / 10 ^ k = a * 10 ^ i := by
  rw [h, zpow_neg, zpow_natCast, div_eq_mul_inv]

/-- Wherever the point stands among the digits, or how far from them, it divides by a power of
ten. -/
theorem pointValue_positional (h : '.' ∉ digits) (i : Int) :
    pointValue (positional digits i) =
      Nat.ofDigitChars 10 digits 0 * 10 ^ (i - digits.length) := by
  rw [positional]
  split_ifs with before behind
  · have zeros : Nat.ofDigitChars 10 (['0'] ++ (List.replicate (-i).toNat '0' ++ digits)) 0 =
        Nat.ofDigitChars 10 digits 0 := by
      simp [Nat.ofDigitChars_append, Nat.ofDigitChars_cons]
    rw [← List.singleton_append, pointValue_append (by decide), zeros]
    exact div_ten_pow _ (by simp; omega)
  · have zeros : Nat.ofDigitChars 10 (digits ++ List.replicate (i.toNat - digits.length) '0') 0 =
        10 ^ (i.toNat - digits.length) * Nat.ofDigitChars 10 digits 0 := by
      rw [Nat.ofDigitChars_append, Nat.ofDigitChars_replicate_zero]
    have power : i - digits.length = (i.toNat - digits.length : Nat) := by omega
    rw [pointValue_of_not_mem (by simp [h]), zeros, power, zpow_natCast]
    push_cast
    ring
  · rw [pointValue_append fun mem => h (List.mem_of_mem_take mem), List.take_append_drop]
    exact div_ten_pow _ (by simp; omega)

/-- A zero behind the point does not change the value. -/
theorem pointValue_append_zero (h : '.' ∉ text) :
    pointValue (text ++ ['.', '0']) = pointValue text := by
  rw [pointValue_append h, pointValue_of_not_mem h]
  simp [Nat.ofDigitChars_append, Nat.ofDigitChars_cons]

theorem powerValue_sign (power : Int) :
    powerValue ('e' :: (if power < 0 then '-' else '+') :: Nat.toDigits 10 power.natAbs) =
      power := by
  split_ifs with negative
  · rw [powerValue, Nat.ofDigitChars_ten_toDigits]
    omega
  · rw [powerValue, Nat.ofDigitChars_ten_toDigits]
    · omega
    · simp

/-! ### Document texts -/

theorem not_mem_toDigits (h : c.isDigit = false) (k : Nat) : c ∉ Nat.toDigits 10 k := by
  intro mem
  rw [Nat.isDigit_of_mem_toDigits (by decide) (by decide) mem] at h
  cases h

theorem not_mem_positional (h : c ∉ digits) (zero : c ≠ '0') (point : c ≠ '.') (i : Int) :
    c ∉ positional digits i := by
  rw [positional]
  split_ifs
  · simp [zero, point, h]
  · simp [zero, h]
  · simpa [point] using ⟨fun mem => h (List.mem_of_mem_take mem),
      fun mem => h (List.mem_of_mem_drop mem)⟩

theorem not_mem_positional_of_le (h : '.' ∉ digits) {i : Int} (pos : 0 < i)
    (behind : digits.length ≤ i) : '.' ∉ positional digits i := by
  rw [positional, if_neg (by omega), if_pos (by omega)]
  simp [h]

/-- A decimal is laid out with an exponent, as a whole number, or with its point among its digits or
in front of them. -/
theorem documentDecimal_cases {d : Nat} {p i : Int} (point : i = (Nat.toDigits 10 d).length + p) :
    documentDecimal (d, p) = positional (Nat.toDigits 10 d) 1 ++
        'e' :: (if i - 1 < 0 then '-' else '+') :: Nat.toDigits 10 (i - 1).natAbs ∨
      documentDecimal (d, p) = positional (Nat.toDigits 10 d) i ++ ['.', '0'] ∧
        ((Nat.toDigits 10 d).length : Int) ≤ i ∨
      documentDecimal (d, p) = positional (Nat.toDigits 10 d) i ∧
        i < (Nat.toDigits 10 d).length := by
  rw [documentDecimal, layout]
  dsimp only
  rw [← point]
  by_cases far : i ≤ -5 ∨ 16 < i
  · rw [if_pos far]
    exact .inl rfl
  · rw [if_neg far]
    by_cases whole : ((Nat.toDigits 10 d).length : Int) ≤ i
    · rw [if_pos whole]
      exact .inr (.inl ⟨rfl, whole⟩)
    · rw [if_neg whole]
      exact .inr (.inr ⟨rfl, by omega⟩)

/-- The text of a decimal has its value. -/
theorem decimalValue_documentDecimal (d : Nat) (p : Int) :
    decimalValue (documentDecimal (d, p)) = d * 10 ^ p := by
  have noPoint : '.' ∉ Nat.toDigits 10 d := not_mem_toDigits rfl d
  have noPower (j : Int) : 'e' ∉ positional (Nat.toDigits 10 d) j :=
    not_mem_positional (not_mem_toDigits rfl d) (by decide) (by decide) j
  have value (j : Int) : pointValue (positional (Nat.toDigits 10 d) j) =
      d * 10 ^ (j - (Nat.toDigits 10 d).length) := by
    rw [pointValue_positional noPoint, Nat.ofDigitChars_ten_toDigits]
  have digits : 0 < (Nat.toDigits 10 d).length := Nat.length_toDigits_pos
  obtain ⟨i, point⟩ : ∃ i : Int, i = (Nat.toDigits 10 d).length + p := ⟨_, rfl⟩
  rcases documentDecimal_cases point with text | ⟨text, whole⟩ | ⟨text, -⟩
  · rw [text, decimalValue_append (noPower 1), powerValue_sign, value, mul_assoc,
      ← zpow_add₀ (by norm_num)]
    congr 2
    omega
  · rw [text, decimalValue_of_not_mem (by simp [noPower]),
      pointValue_append_zero (not_mem_positional_of_le noPoint (by omega) whole), value]
    congr 2
    omega
  · rw [text, decimalValue_of_not_mem (noPower i), value]
    congr 2
    omega

/-- The document text of a number without its sign. -/
def documentBody (m e : Nat) : List Char :=
  if m = 0 then ['0', '.', '0'] else documentDecimal (shortest .even m e)

theorem documentText?_finite (negative : Bool) (normal : IsNormal m e) :
    (finite negative m e normal).documentText? =
      some (String.ofList (sign negative ++ documentBody m e)) :=
  rfl

/-- The value of a text rounds to the number that was written. -/
theorem decimalValue_documentBody (m e : Nat) :
    ∃ k d : Nat, decimalValue (documentBody m e) = d * 10 ^ ((k : Int) - 1074) ∧
      roundsTo m e (d * (Nat.pow 2 1076 * Nat.pow 10 k)) := by
  by_cases zero : m = 0
  · refine ⟨0, 0, ?_, ?_⟩
    · rw [documentBody, if_pos zero, decimalValue_of_not_mem (by decide), pointValue]
      simp [Nat.ofDigitChars_cons]
    · have least : fourfold m e = 0 := by rw [fourfold_eq, zero, Nat.mul_zero, Nat.zero_mul]
      rw [Nat.zero_mul, ← least]
      exact roundsTo_fourfold m e
  · obtain ⟨k, d, result, rounds⟩ := roundsTo_shortest .even m e
    refine ⟨k, d, ?_, rounds⟩
    rw [documentBody, if_neg zero, result, decimalValue_documentDecimal]

/-- Decimals of the same value are the same multiple of any unit. -/
theorem mul_ten_pow_inj {d d' k k' : Nat}
    (h : (d : ℚ) * 10 ^ ((k : Int) - 1074) = d' * 10 ^ ((k' : Int) - 1074)) (unit : Nat) :
    d * (unit * Nat.pow 10 k) = d' * (unit * Nat.pow 10 k') := by
  rw [zpow_sub₀ (by norm_num), zpow_sub₀ (by norm_num), ← mul_div_assoc, ← mul_div_assoc,
    div_left_inj' (zpow_ne_zero _ (by norm_num)), zpow_natCast, zpow_natCast] at h
  have tens : d * Nat.pow 10 k = d' * Nat.pow 10 k' := by exact_mod_cast h
  rw [Nat.mul_left_comm, tens, Nat.mul_left_comm]

/-- Numbers in normal form with the same text are the same. -/
theorem documentBody_inj (normal : IsNormal m e) (normal' : IsNormal n f)
    (h : documentBody m e = documentBody n f) : m = n ∧ e = f := by
  obtain ⟨k, d, value, rounds⟩ := decimalValue_documentBody m e
  obtain ⟨k', d', value', rounds'⟩ := decimalValue_documentBody n f
  rw [← h, value] at value'
  rw [← mul_ten_pow_inj value'] at rounds'
  exact eq_of_roundsTo normal normal' rounds rounds'

/-! ### The characters of a text -/

/-- The characters that numbers are written with. -/
def isNumberChar (c : Char) : Bool :=
  c.isDigit || c ∈ ['-', '+', '.', 'e']

theorem isNumberChar_of_mem_sign {negative : Bool} (h : c ∈ sign negative) : isNumberChar c := by
  cases negative
  · cases h
  · rw [List.mem_singleton.mp h]
    rfl

theorem isNumberChar_of_mem_toDigits {k : Nat} (h : c ∈ Nat.toDigits 10 k) : isNumberChar c := by
  rw [isNumberChar, Nat.isDigit_of_mem_toDigits (by decide) (by decide) h]
  rfl

theorem isNumberChar_of_mem_positional {i : Int} (h : ∀ c ∈ digits, isNumberChar c) :
    ∀ c ∈ positional digits i, isNumberChar c := by
  intro c
  rw [positional]
  split_ifs <;> simp only [List.mem_cons, List.mem_append, List.mem_replicate]
  · rintro (rfl | rfl | ⟨-, rfl⟩ | mem)
    · rfl
    · rfl
    · rfl
    · exact h c mem
  · rintro (mem | ⟨-, rfl⟩)
    · exact h c mem
    · rfl
  · rintro (mem | rfl | mem)
    · exact h c (List.mem_of_mem_take mem)
    · rfl
    · exact h c (List.mem_of_mem_drop mem)

/-- A text that can be told from that of an integer, and starts without a sign. -/
structure IsDecimal (text : List Char) : Prop where
  chars : ∀ c ∈ text, isNumberChar c
  marked : '.' ∈ text ∨ 'e' ∈ text
  head : ∃ c rest, text = c :: rest ∧ c.isDigit

theorem head_positional (h : ∃ c rest, digits = c :: rest ∧ c.isDigit) (i : Int) :
    ∃ c rest, positional digits i = c :: rest ∧ c.isDigit := by
  obtain ⟨c, rest, rfl, digit⟩ := h
  rw [positional]
  split_ifs with before behind
  · exact ⟨'0', _, rfl, rfl⟩
  · exact ⟨c, _, rfl, digit⟩
  · obtain ⟨k, index⟩ : ∃ k, i.toNat = k + 1 := ⟨i.toNat - 1, by omega⟩
    exact ⟨c, _, by rw [index, List.take_succ_cons, List.cons_append], digit⟩

theorem head_toDigits (d : Nat) : ∃ c rest, Nat.toDigits 10 d = c :: rest ∧ c.isDigit := by
  obtain ⟨c, rest, text⟩ := List.exists_cons_of_ne_nil (Nat.toDigits_ne_nil (n := d) (b := 10))
  refine ⟨c, rest, text, Nat.isDigit_of_mem_toDigits (b := 10) (n := d) (by decide) (by decide) ?_⟩
  exact text ▸ List.mem_cons_self

theorem isDecimal_documentDecimal (decimal : Nat × Int) : IsDecimal (documentDecimal decimal) := by
  obtain ⟨d, p⟩ := decimal
  have chars (j : Int) : ∀ c ∈ positional (Nat.toDigits 10 d) j, isNumberChar c :=
    isNumberChar_of_mem_positional fun c => isNumberChar_of_mem_toDigits
  have head (j : Int) := head_positional (head_toDigits d) j
  obtain ⟨i, point⟩ : ∃ i : Int, i = (Nat.toDigits 10 d).length + p := ⟨_, rfl⟩
  rcases documentDecimal_cases point with text | ⟨text, -⟩ | ⟨text, among⟩
  · obtain ⟨c, rest, first, digit⟩ := head 1
    rw [text]
    refine ⟨fun c mem => ?_, .inr (by simp), c, _, by rw [first, List.cons_append], digit⟩
    simp only [List.mem_append, List.mem_cons] at mem
    rcases mem with mem | rfl | rfl | mem
    · exact chars 1 c mem
    · rfl
    · split_ifs <;> rfl
    · exact isNumberChar_of_mem_toDigits mem
  · obtain ⟨c, rest, first, digit⟩ := head i
    rw [text]
    refine ⟨fun c mem => ?_, .inl (by simp), c, _, by rw [first, List.cons_append], digit⟩
    simp only [List.mem_append, List.mem_cons, List.not_mem_nil, or_false] at mem
    rcases mem with mem | rfl | rfl
    · exact chars i c mem
    · rfl
    · rfl
  · rw [text]
    refine ⟨chars i, .inl ?_, head i⟩
    rw [positional]
    split_ifs
    · simp
    · omega
    · simp

theorem isDecimal_documentBody (m e : Nat) : IsDecimal (documentBody m e) := by
  rw [documentBody]
  split_ifs
  · exact ⟨by simp [isNumberChar], .inl (by simp), '0', _, rfl, rfl⟩
  · exact isDecimal_documentDecimal _

/-! ### Finite numbers -/

/-- The text of a number is a decimal, with a sign if the number is negative. -/
theorem documentText?_eq_some_iff {x : Number} {s : String} :
    x.documentText? = some s ↔ ∃ negative m e normal, x = finite negative m e normal ∧
      s.toList = sign negative ++ documentBody m e := by
  cases x with
  | infinite => simp [documentText?]
  | nan => simp [documentText?]
  | finite negative m e normal =>
    rw [documentText?_finite]
    constructor
    · rintro ⟨⟩
      exact ⟨negative, m, e, normal, rfl, String.toList_ofList⟩
    · rintro ⟨_, _, _, _, ⟨⟩, text⟩
      rw [← text, String.ofList_toList]

/-- Digits start without a sign, so that a sign before them is seen. -/
theorem sign_append_inj {negative negative' : Bool} {text text' : List Char}
    (head : ∃ c rest, text = c :: rest ∧ c.isDigit)
    (head' : ∃ c rest, text' = c :: rest ∧ c.isDigit)
    (same : sign negative ++ text = sign negative' ++ text') :
    negative = negative' ∧ text = text' := by
  obtain ⟨c, rest, rfl, digit⟩ := head
  obtain ⟨c', rest', rfl, digit'⟩ := head'
  cases negative <;> cases negative'
  · exact ⟨rfl, same⟩
  · obtain ⟨rfl, -⟩ := List.cons.inj same
    cases digit
  · obtain ⟨rfl, -⟩ := List.cons.inj same
    cases digit'
  · exact ⟨rfl, (List.cons.inj same).2⟩

/-- Numbers with the same document text are the same. -/
theorem documentText?_inj {x y : Number} {s : String} (h : x.documentText? = some s)
    (h' : y.documentText? = some s) : x = y := by
  obtain ⟨negative, m, e, normal, rfl, text⟩ := documentText?_eq_some_iff.mp h
  obtain ⟨negative', n, f, normal', rfl, text'⟩ := documentText?_eq_some_iff.mp h'
  obtain ⟨rfl, body⟩ := sign_append_inj (isDecimal_documentBody m e).head
    (isDecimal_documentBody n f).head (text.symm.trans text')
  obtain ⟨rfl, rfl⟩ := documentBody_inj normal normal' body
  rfl

end ModuleSystem.Number
