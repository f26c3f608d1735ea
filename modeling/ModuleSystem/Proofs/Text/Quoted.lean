import ModuleSystem.Text.Quoted
import ModuleSystem.Proofs.Url.Shape

/-!
# Quoted text can be told

A quoted text shows every character in a way of its own, and ends at the first quote that no
backslash stands before. So the text can be told from what is written, whatever follows.

## Main results

* `Text.quoteChar_append_inj` : a character is told from its written form, and where that ends.
* `Text.quote_injective` : texts that are quoted alike are equal.
-/

namespace ModuleSystem.Text

variable {c d : Char} {s t r r' : List Char}

/-- The hexadecimal digits of a number tell the number. -/
private theorem toDigits_inj {m n : Nat} (h : Nat.toDigits 16 m = Nat.toDigits 16 n) : m = n := by
  have digit : ∀ i < 16, ∀ j < 16, Nat.digitChar i = Nat.digitChar j → i = j := by decide
  have front (n : Nat) : 0 < (Nat.toDigits 16 n).length := Nat.length_toDigits_pos
  induction m using Nat.strongRecOn generalizing n with
  | ind m ih =>
    rw [Nat.toDigits_eq_if (by decide), Nat.toDigits_eq_if (n := n) (by decide)] at h
    have length := congrArg List.length h
    split_ifs at h length with small small' small'
    · exact digit m small n small' (List.singleton_inj.mp h)
    · have := front (n / 16)
      simp only [List.length_append, List.length_singleton] at length
      omega
    · have := front (m / 16)
      simp only [List.length_append, List.length_singleton] at length
      omega
    · obtain ⟨high, low⟩ := List.append_inj' h rfl
      have quotient := ih (m / 16) (by omega) high
      have remainder := digit (m % 16) (by omega) (n % 16) (by omega) (List.singleton_inj.mp low)
      omega

private theorem brace_not_mem_toDigits (n : Nat) : '\x7d' ∉ Nat.toDigits 16 n := by
  have digit : ∀ i < 16, Nat.digitChar i ≠ '\x7d' := by decide
  induction n using Nat.strongRecOn with
  | ind n ih =>
    rw [Nat.toDigits_eq_if (by decide)]
    split_ifs with small
    · exact fun mem => digit n small (List.mem_singleton.mp mem).symm
    · intro mem
      rcases List.mem_append.mp mem with high | low
      · exact ih (n / 16) (by omega) high
      · exact digit (n % 16) (by omega) (List.mem_singleton.mp low).symm

/-- The characters that are written as a backslash and one more character, with the latter. -/
private def letters : List (Char × Char) :=
  [('\x00', '0'), ('\t', 't'), ('\r', 'r'), ('\n', 'n'), ('"', '"'), ('\\', '\\')]

/-- The ways in which a character is written. -/
private inductive Written : Char → List Char → Prop
  | letter {c d : Char} (mem : (c, d) ∈ letters) : Written c ['\\', d]
  | number (c : Char) : Written c (['\\', 'u', '\x7b'] ++ Nat.toDigits 16 c.toNat ++ ['\x7d'])
  | plain {c : Char} (quote : c ≠ '"') (backslash : c ≠ '\\') : Written c [c]

private theorem written_quoteChar (c : Char) : Written c (quoteChar c) := by
  rw [quoteChar]
  split_ifs with zero tab cr lf escaped unseen
  · obtain rfl := beq_iff_eq.mp zero
    exact .letter (by decide)
  · obtain rfl := beq_iff_eq.mp tab
    exact .letter (by decide)
  · obtain rfl := beq_iff_eq.mp cr
    exact .letter (by decide)
  · obtain rfl := beq_iff_eq.mp lf
    exact .letter (by decide)
  · obtain rfl | rfl : c = '"' ∨ c = '\\' := by simpa using escaped
    · exact .letter (by decide)
    · exact .letter (by decide)
  · exact .number c
  · simp only [Bool.or_eq_true, beq_iff_eq, not_or] at escaped
    exact .plain escaped.1 escaped.2

private theorem Written.append_inj (hc : Written c s) (hd : Written d t) (h : s ++ r = t ++ r') :
    c = d ∧ r = r' := by
  have first : ∀ p ∈ letters, ∀ q ∈ letters, p.2 = q.2 → p.1 = q.1 := by decide
  have noNumber : ∀ p ∈ letters, p.2 ≠ 'u' := by decide
  cases hc with
  | letter mem =>
    cases hd with
    | letter mem' =>
      simp only [List.cons_append, List.nil_append, List.cons.injEq, true_and] at h
      exact ⟨first _ mem _ mem' h.1, h.2⟩
    | number =>
      simp only [List.cons_append, List.cons.injEq] at h
      exact absurd h.2.1 (noNumber _ mem)
    | plain _ backslash => exact absurd (List.cons.inj h).1.symm backslash
  | number =>
    cases hd with
    | letter mem' =>
      simp only [List.cons_append, List.cons.injEq] at h
      exact absurd h.2.1.symm (noNumber _ mem')
    | number =>
      simp only [List.cons_append, List.append_assoc, List.nil_append, List.cons.injEq,
        true_and] at h
      obtain ⟨digits, rest⟩ := append_inj_of_stops (p := (· = '\x7d'))
        (fun e he brace => brace_not_mem_toDigits _ (brace ▸ he))
        (fun e he brace => brace_not_mem_toDigits _ (brace ▸ he)) (by simp) (by simp) h
      exact ⟨Char.toNat_inj.mp (toDigits_inj digits), (List.cons.inj rest).2⟩
    | plain _ backslash => exact absurd (List.cons.inj h).1.symm backslash
  | plain _ backslash =>
    cases hd with
    | letter | number => exact absurd (List.cons.inj h).1 backslash
    | plain =>
      obtain ⟨same, rest⟩ := List.cons.inj h
      exact ⟨same, rest⟩

/-- A character is told from its written form, and so is where this ends. -/
theorem quoteChar_append_inj (h : quoteChar c ++ r = quoteChar d ++ r') : c = d ∧ r = r' :=
  (written_quoteChar c).append_inj (written_quoteChar d) h

/-- No character is written so that it could end a quoted text. -/
theorem quoteChar_append_ne (c : Char) (r r' : List Char) : quoteChar c ++ r ≠ '"' :: r' := by
  intro h
  generalize written : quoteChar c = s at h
  cases written ▸ written_quoteChar c with
  | letter | number => exact absurd (List.cons.inj h).1 (by decide)
  | plain quote => exact absurd (List.cons.inj h).1 quote

/-- The characters before the closing quote are told from their written forms. -/
private theorem flatMap_quoteChar_inj
    (h : s.flatMap quoteChar ++ ['"'] = t.flatMap quoteChar ++ ['"']) : s = t := by
  induction s generalizing t with
  | nil =>
    cases t with
    | nil => rfl
    | cons d t =>
      rw [List.flatMap_cons, List.append_assoc] at h
      exact absurd h.symm (quoteChar_append_ne d _ _)
  | cons c s ih =>
    cases t with
    | nil =>
      rw [List.flatMap_cons, List.append_assoc] at h
      exact absurd h (quoteChar_append_ne c _ _)
    | cons d t =>
      rw [List.flatMap_cons, List.flatMap_cons, List.append_assoc, List.append_assoc] at h
      obtain ⟨rfl, rest⟩ := quoteChar_append_inj h
      rw [ih rest]

/-- Texts that are quoted alike are equal. -/
theorem quote_injective : Function.Injective quote := by
  intro s t h
  have text := congrArg String.toList h
  simp only [quote, String.toList_ofList, List.cons_append, List.cons.injEq, true_and] at text
  exact String.toList_injective (flatMap_quoteChar_inj text)

end ModuleSystem.Text
