import Mathlib.Algebra.Order.Ring.Nat
import Mathlib.Tactic.Linarith
import Mathlib.Tactic.Ring
import ModuleSystem.Number.Shortest

/-!
# Shortest decimals tell their numbers

The reals that round to one binary64 number form an interval, and the intervals of two numbers have
no real in common: neighbours share an end, and it goes to the one with the even significand. As the
shortest decimal of a number rounds to the number, it tells which number it was.

## Main definitions

* `Number.quarter` : a quarter of the gap above a number, in units of the search.

## Main results

* `Number.eq_of_roundsTo` : a real rounds to one number at most.
* `Number.roundsTo_shortest` : the shortest decimal of a number rounds to it.
-/

namespace ModuleSystem.Number

variable {m n e f u : Nat}

/-- A quarter of the gap above a number with this exponent, in units of the search. -/
def quarter (e : Nat) : Nat :=
  Nat.pow 2 e * Nat.pow 10 1074

theorem fourfold_eq (m e : Nat) : fourfold m e = 4 * m * quarter e := by
  rw [fourfold, quarter]
  ring

theorem quarter_pos (e : Nat) : 0 < quarter e :=
  Nat.mul_pos (Nat.pow_pos (by decide)) (Nat.pow_pos (by decide))

/-- A greater exponent at least doubles the gap. -/
theorem two_mul_quarter_le (h : e < f) : 2 * quarter e ≤ quarter f := by
  have twice : 2 * Nat.pow 2 e ≤ Nat.pow 2 f := by
    calc 2 * 2 ^ e = 2 ^ (e + 1) := (pow_succ' 2 e).symm
      _ ≤ 2 ^ f := Nat.pow_le_pow_right (by decide) h
  calc 2 * (Nat.pow 2 e * Nat.pow 10 1074) = 2 * Nat.pow 2 e * Nat.pow 10 1074 :=
        (Nat.mul_assoc ..).symm
    _ ≤ Nat.pow 2 f * Nat.pow 10 1074 := Nat.mul_le_mul_right _ twice

/-! ### The ends of an interval -/

/-- What rounds to a number lies at most half a gap above it, and less if the number is odd. -/
theorem le_of_roundsTo (h : roundsTo m e u) :
    u ≤ (4 * m + 2) * quarter e ∧ (m % 2 = 1 → u < (4 * m + 2) * quarter e) := by
  have high : (roundingInterval m e).2 = (4 * m + 2) * quarter e := by
    rw [Nat.add_mul, ← fourfold_eq]
    rfl
  rw [← high]
  rw [roundsTo] at h
  split_ifs at h with even <;> simp only [Bool.and_eq_true, decide_eq_true_eq] at h
  · exact ⟨h.2, fun odd => by omega⟩
  · exact ⟨h.2.le, fun _ => h.2⟩

/-- What rounds to a number lies at most half a gap below it, where the gap below the least
significand of an exponent is half as wide; and less if the number is odd. -/
theorem ge_of_roundsTo (h : roundsTo m e u) :
    (4 * m - 2) * quarter e ≤ u ∧ (m % 2 = 1 → (4 * m - 2) * quarter e < u) ∧
      (m = Nat.pow 2 52 → e ≠ 0 → (4 * m - 1) * quarter e ≤ u) := by
  have low : (roundingInterval m e).1 =
      (4 * m - if m = Nat.pow 2 52 ∧ e ≠ 0 then 1 else 2) * quarter e := by
    rw [Nat.sub_mul, ← fourfold_eq, roundingInterval]
    split_ifs
    · rw [Nat.one_mul]
      rfl
    · rfl
  have least : (4 * m - 2) * quarter e ≤ (roundingInterval m e).1 := by
    rw [low]
    exact Nat.mul_le_mul_right _ (by split_ifs <;> omega)
  have narrow (power : m = Nat.pow 2 52) (rest : e ≠ 0) :
      (4 * m - 1) * quarter e = (roundingInterval m e).1 := by
    rw [low, if_pos ⟨power, rest⟩]
  rw [roundsTo] at h
  split_ifs at h with even <;> simp only [Bool.and_eq_true, decide_eq_true_eq] at h
  · exact ⟨least.trans h.1, fun odd => by omega, fun power rest => (narrow power rest).trans_le h.1⟩
  · exact ⟨least.trans h.1.le, fun _ => least.trans_lt h.1,
      fun power rest => (narrow power rest).trans_le h.1.le⟩

/-- A number rounds to itself. -/
theorem roundsTo_fourfold (m e : Nat) : roundsTo m e (fourfold m e) := by
  have pos : 0 < quarter e := quarter_pos e
  have high : fourfold m e < (roundingInterval m e).2 :=
    Nat.lt_add_of_pos_right (Nat.mul_pos (by decide) pos)
  have low (odd : m % 2 ≠ 0) : (roundingInterval m e).1 < fourfold m e := by
    refine Nat.sub_lt ?_ ?_
    · rw [fourfold_eq]
      exact Nat.mul_pos (by omega) pos
    · split_ifs
      · exact pos
      · exact Nat.mul_pos (by decide) pos
  rw [roundsTo]
  split_ifs with even <;> simp only [Bool.and_eq_true, decide_eq_true_eq]
  · exact ⟨Nat.sub_le _ _, high.le⟩
  · exact ⟨low even, high⟩

/-! ### No real rounds to two numbers -/

/-- What rounds to a number does not round to a greater one of the same exponent. -/
theorem not_roundsTo_of_lt (less : m < n) (h : roundsTo m e u) : ¬ roundsTo n e u := by
  intro h'
  obtain ⟨high, highOdd⟩ := le_of_roundsTo h
  obtain ⟨low, lowOdd, -⟩ := ge_of_roundsTo h'
  rcases (Nat.succ_le_of_lt less).eq_or_lt with rfl | gap
  · -- neighbours: one of the two is odd and leaves the end that they share to the other
    have shared : 4 * (m + 1) - 2 = 4 * m + 2 := by omega
    rw [shared] at low lowOdd
    rcases Nat.mod_two_eq_zero_or_one m with even | odd
    · exact absurd high (lowOdd (by omega)).not_ge
    · exact absurd low (highOdd odd).not_ge
  · have : (4 * m + 2) * quarter e < (4 * n - 2) * quarter e :=
      Nat.mul_lt_mul_of_pos_right (by omega) (quarter_pos e)
    omega

/-- What rounds to a number does not round to one of a greater exponent. -/
theorem not_roundsTo_of_exponent_lt (normal : IsNormal m e) (normal' : IsNormal n f)
    (less : e < f) (h : roundsTo m e u) : ¬ roundsTo n f u := by
  intro h'
  obtain ⟨high, highOdd⟩ := le_of_roundsTo h
  obtain ⟨low, -, lowNarrow⟩ := ge_of_roundsTo h'
  have double : 2 * quarter e ≤ quarter f := two_mul_quarter_le less
  have pos : 0 < quarter e := quarter_pos e
  have bound : m < Nat.pow 2 53 := normal.1
  have full : Nat.pow 2 52 ≤ n := normal'.2.1.resolve_left (by omega)
  simp only [Nat.reducePow, Nat.pow_eq] at bound full lowNarrow
  have above (k : Nat) (hk : k * quarter f ≤ u) : 2 * k * quarter e ≤ u := by
    calc 2 * k * quarter e = k * (2 * quarter e) := by ring
      _ ≤ k * quarter f := Nat.mul_le_mul_left k double
      _ ≤ u := hk
  have apart (k : Nat) (hk : k * quarter f ≤ u) : 2 * k ≤ 4 * m + 2 :=
    Nat.le_of_mul_le_mul_right ((above k hk).trans high) pos
  rcases full.eq_or_lt with power | rest
  · -- the gap below the least number of an exponent is that of the lesser exponent
    have narrow : (4 * n - 1) * quarter f ≤ u := lowNarrow power.symm (by omega)
    have last : 2 * (4 * n - 1) = 4 * m + 2 := by
      have := apart _ narrow
      omega
    exact absurd (last ▸ above _ narrow) (highOdd (by omega)).not_ge
  · have := apart _ low
    omega

/-- A real rounds to one number at most. -/
theorem eq_of_roundsTo (normal : IsNormal m e) (normal' : IsNormal n f) (h : roundsTo m e u)
    (h' : roundsTo n f u) : m = n ∧ e = f := by
  rcases lt_trichotomy e f with less | rfl | less
  · exact absurd h' (not_roundsTo_of_exponent_lt normal normal' less h)
  · rcases lt_trichotomy m n with less | rfl | less
    · exact absurd h' (not_roundsTo_of_lt less h)
    · exact ⟨rfl, rfl⟩
    · exact absurd h (not_roundsTo_of_lt less h')
  · exact absurd h (not_roundsTo_of_exponent_lt normal' normal less h')

/-! ### The search -/

/-- A decimal that the search hits rounds to the number. -/
theorem roundsTo_of_hit? {tie : Tie} {step d : Nat} (h : hit? tie m e step = some d) :
    roundsTo m e (d * step) := by
  rw [hit?] at h
  have found := List.find?_some h
  exact found

theorem two_pow_dvd_ten_pow (n k : Nat) : Nat.pow 2 (k + 2) ∣ n * Nat.pow 10 k * 4 := by
  have tens : 10 ^ k = 5 ^ k * 2 ^ k := Nat.mul_pow 5 2 k
  refine ⟨n * 5 ^ k, ?_⟩
  calc n * 10 ^ k * 4 = n * (5 ^ k * 2 ^ k) * 4 := by rw [tens]
    _ = 2 ^ (k + 2) * (n * 5 ^ k) := by ring

/-- Every number is a multiple of the least power of ten that the search takes. -/
theorem dvd_fourfold (m e : Nat) : Nat.pow 2 1076 ∣ fourfold m e :=
  two_pow_dvd_ten_pow (m * Nat.pow 2 e) 1074

/-- The search ends with a hit or at the least power. -/
theorem search_eq (hit : Nat → Option Nat) (least limit : Nat) :
    ∃ n digits : Nat, search hit least limit = (digits, (n : Int) - 1074) ∧
      (hit n = some digits ∨ n = 0 ∧ digits = least) := by
  induction limit with
  | zero => exact ⟨0, least, rfl, .inr ⟨rfl, rfl⟩⟩
  | succ limit ih =>
    rw [search]
    split
    · next digits found => exact ⟨limit + 1, digits, by simp, .inl found⟩
    · exact ih

/-- A search among the multiples of powers of ten finds one that rounds to the number, if the number
itself is a multiple of the least. -/
theorem roundsTo_search (tie : Tie) {unit : Nat} (multiple : unit ∣ fourfold m e) (limit : Nat) :
    ∃ n digits : Nat,
      search (fun n => hit? tie m e (unit * Nat.pow 10 n)) (fourfold m e / unit) limit =
        (digits, (n : Int) - 1074) ∧
      roundsTo m e (digits * (unit * Nat.pow 10 n)) := by
  obtain ⟨n, digits, result, hit | ⟨rfl, rfl⟩⟩ := search_eq
    (fun n => hit? tie m e (unit * Nat.pow 10 n)) (fourfold m e / unit) limit
  · exact ⟨n, digits, result, roundsTo_of_hit? hit⟩
  · have whole : fourfold m e / unit * (unit * Nat.pow 10 0) = fourfold m e := by
      rw [Nat.pow_eq, Nat.pow_zero, Nat.mul_one, Nat.div_mul_cancel multiple]
    refine ⟨0, _, result, ?_⟩
    rw [whole]
    exact roundsTo_fourfold m e

/-- The shortest decimal of a number rounds to it. -/
theorem roundsTo_shortest (tie : Tie) (m e : Nat) :
    ∃ n digits : Nat, shortest tie m e = (digits, (n : Int) - 1074) ∧
      roundsTo m e (digits * (Nat.pow 2 1076 * Nat.pow 10 n)) :=
  roundsTo_search tie (dvd_fourfold m e) _

end ModuleSystem.Number
