import Mathlib.Data.List.Basic
import Mathlib.Data.String.Basic
import Mathlib.Tactic.IntervalCases
import ModuleSystem.Json.Literal
import ModuleSystem.Json.Writer
import ModuleSystem.Proofs.Number.Text

/-!
# JSON values told by their texts

What is written differs for different values. A string is read back from its text, a number ends
where a character comes that numbers are not written with, and the first character of a text tells
which kind of value follows. So the text of a value tells the value and where the text ends, and
from the innermost values outwards this holds of all of them. Numbers that are not finite are all
written as null, and so they are left out.

## Main definitions

* `Json.IsFinite` : all numbers in a value are finite.
* `Json.Ends` : a value may end before this text.
* `Json.lead` : the kind of a value, as the first character of its text tells it.

## Main results

* `Json.readString_flatMap` : a written string is read back.
* `Json.compactText_append_inj` : a text tells its value and where the value ends.
* `Json.compact_inj` : values with the same text are equal.
-/

namespace ModuleSystem.Json

variable {c : Char} {r r' : List Char}

/-! ### Strings -/

/-- A control character without a letter of its own is written with its number. -/
theorem readString_control {k : Nat} (h : k < 0x20) (done : List Nat) (rest : List Char) :
    readString done (['\\', 'u', '0', '0'] ++ (if k < 16 then ['0'] else []) ++
      Nat.toDigits 16 k ++ rest) = readString (k :: done) rest := by
  interval_cases k <;> rfl

/-- A written character is read as one code point. -/
theorem readString_escapeChar (done : List Nat) (c : Char) (rest : List Char) :
    readString done (escapeChar c ++ rest) = readString (c.toNat :: done) rest := by
  by_cases lettered : c ∈ ['"', '\\', '\x08', '\x0c', '\n', '\r', '\t']
  · simp only [List.mem_cons, List.not_mem_nil, or_false] at lettered
    rcases lettered with rfl | rfl | rfl | rfl | rfl | rfl | rfl <;> rfl
  · simp only [List.mem_cons, List.not_mem_nil, or_false, not_or] at lettered
    obtain ⟨quote, backslash, b, f, n, r, t⟩ := lettered
    by_cases control : c.toNat < 0x20
    · have written : escapeChar c = ['\\', 'u', '0', '0'] ++
          (if c.toNat < 16 then ['0'] else []) ++ Nat.toDigits 16 c.toNat := by
        simp [escapeChar, quote, backslash, b, f, n, r, t, control]
      rw [written]
      exact readString_control control done rest
    · have written : escapeChar c = [c] := by
        simp [escapeChar, quote, backslash, b, f, n, r, t, control]
      rw [written, List.singleton_append, readString]
      · rw [if_neg control]
      · exact quote
      · intro _ _ _ _ _ h
        exact absurd h backslash
      · intro _ _ h
        exact absurd h backslash

/-- The characters of a written string are read as its code points. -/
theorem readString_flatMap (s : List Char) (done : List Nat) (rest : List Char) :
    readString done (s.flatMap escapeChar ++ '"' :: rest) =
      .ok ({ points := done.reverse ++ s.map Char.toNat }, rest) := by
  induction s generalizing done with
  | nil => simp [readString]
  | cons c s ih =>
    rw [List.flatMap_cons, List.append_assoc, readString_escapeChar, ih]
    simp

/-- A written string tells the string, and where it ends. -/
theorem stringText_append_inj {s t : String} (h : stringText s ++ r = stringText t ++ r') :
    s = t ∧ r = r' := by
  have quoted (s : String) (r : List Char) :
      stringText s ++ r = '"' :: (s.toList.flatMap escapeChar ++ '"' :: r) := by
    simp [stringText]
  have read := congrArg (fun text => readString [] (text.drop 1)) h
  simp only [quoted, List.drop_one, List.tail_cons, readString_flatMap, Except.ok.injEq,
    Prod.mk.injEq, StringLiteral.mk.injEq, List.reverse_nil, List.nil_append] at read
  have chars : s.toList = t.toList :=
    List.map_injective_iff.mpr (fun _ _ => Char.toNat_inj.mp) read.1
  exact ⟨String.toList_injective chars, read.2⟩

/-! ### Numbers -/

/-- Where a value ends in a text: at its end, at a comma or at the end of a container. -/
def Ends (rest : List Char) : Prop :=
  ∀ c ∈ rest.head?, c ∈ [',', ']', '\x7d']

theorem takeWhile_isNumberChar {text : List Char} (chars : ∀ c ∈ text, Number.isNumberChar c)
    (ends : Ends r) : (text ++ r).takeWhile Number.isNumberChar = text := by
  have none : r.takeWhile Number.isNumberChar = [] := by
    cases r with
    | nil => rfl
    | cons c r =>
      refine List.takeWhile_cons_of_neg ?_
      have separates := ends c rfl
      simp only [List.mem_cons, List.not_mem_nil, or_false] at separates
      rcases separates with rfl | rfl | rfl <;> decide
  rw [List.takeWhile_append_of_pos chars, none, List.append_nil]

/-- The text of a number ends where the next character is not one of a number. -/
theorem append_inj_of_isNumberChar {text text' : List Char}
    (chars : ∀ c ∈ text, Number.isNumberChar c) (chars' : ∀ c ∈ text', Number.isNumberChar c)
    (ends : Ends r) (ends' : Ends r') (h : text ++ r = text' ++ r') : text = text' ∧ r = r' := by
  have same : text = text' := by
    rw [← takeWhile_isNumberChar chars ends, h, takeWhile_isNumberChar chars' ends']
  subst same
  exact ⟨rfl, List.append_cancel_left h⟩

theorem int_text (n : Int) :
    (toString n).toList = Number.sign (n < 0) ++ Nat.toDigits 10 n.natAbs := by
  rw [Int.toString_eq_repr, Int.repr_eq_if]
  split_ifs with natural
  · have : n.toNat = n.natAbs := by omega
    simp [Number.sign, natural, this]
  · have : (-n).toNat = n.natAbs := by omega
    simp [Number.sign, Int.not_le.mp natural, this]

/-- Integers with the same text are the same. -/
theorem int_text_inj {m n : Int} (h : (toString m).toList = (toString n).toList) : m = n := by
  rw [int_text, int_text] at h
  obtain ⟨sign, digits⟩ :=
    Number.sign_append_inj (Number.head_toDigits _) (Number.head_toDigits _) h
  have abs : m.natAbs = n.natAbs := by
    rw [← Nat.ofDigitChars_ten_toDigits (n := m.natAbs), digits, Nat.ofDigitChars_ten_toDigits]
  rw [decide_eq_decide] at sign
  omega

theorem isNumberChar_of_mem_int (n : Int) : ∀ c ∈ (toString n).toList, Number.isNumberChar c := by
  intro c mem
  rw [int_text, List.mem_append] at mem
  exact mem.elim Number.isNumberChar_of_mem_sign Number.isNumberChar_of_mem_toDigits

theorem isNumberChar_of_mem_number {x : Number} {s : String} (h : x.documentText? = some s) :
    ∀ c ∈ s.toList, Number.isNumberChar c := by
  intro c mem
  obtain ⟨_, m, e, _, _, text⟩ := Number.documentText?_eq_some_iff.mp h
  rw [text, List.mem_append] at mem
  exact mem.elim Number.isNumberChar_of_mem_sign ((Number.isDecimal_documentBody m e).chars c)

/-- The text of a number has a point or an exponent, which that of an integer has not. -/
theorem int_text_ne_number {x : Number} {s : String} (h : x.documentText? = some s) (n : Int) :
    (toString n).toList ≠ s.toList := by
  intro same
  obtain ⟨negative, m, e, _, _, text⟩ := Number.documentText?_eq_some_iff.mp h
  have decimal := Number.isDecimal_documentBody m e
  rw [text, int_text] at same
  obtain ⟨-, digits⟩ := Number.sign_append_inj (Number.head_toDigits _) decimal.head same
  rw [← digits] at decimal
  exact decimal.marked.elim (Number.not_mem_toDigits rfl _) (Number.not_mem_toDigits rfl _)

/-! ### Containers -/

section Join

variable {α : Type} {f : α → List Char} {close : Char} {xs ys : List α}

theorem join_cons (piece : List Char) (pieces : List (List Char)) :
    Text.join [','] (piece :: pieces) = piece ++ pieces.flatMap (',' :: ·) := by
  induction pieces generalizing piece with
  | nil => simp [Text.join]
  | cons next pieces ih => rw [Text.join, ih] <;> simp

/-- A list of parts ends at the mark behind it. -/
theorem ends_flatMap (closes : close ∈ [',', ']', '\x7d']) (xs : List α) (r : List Char) :
    Ends ((xs.map f).flatMap (',' :: ·) ++ close :: r) := by
  cases xs <;> simp_all [Ends]

/-- The parts of a container are told by their text, if each of them is. -/
theorem flatMap_append_inj (closes : close ∈ [']', '\x7d'])
    (inj : ∀ x ∈ xs, ∀ y ∈ ys, ∀ r r', Ends r → Ends r' → f x ++ r = f y ++ r' → x = y ∧ r = r')
    (h : (xs.map f).flatMap (',' :: ·) ++ close :: r =
      (ys.map f).flatMap (',' :: ·) ++ close :: r') : xs = ys ∧ r = r' := by
  have differ : close ≠ ',' := by
    rintro rfl
    revert closes
    decide
  have ends (zs : List α) (r : List Char) :
      Ends ((zs.map f).flatMap (',' :: ·) ++ close :: r) :=
    ends_flatMap (List.mem_cons_of_mem _ closes) zs r
  induction xs generalizing ys with
  | nil =>
    cases ys with
    | nil => exact ⟨rfl, (List.cons.inj h).2⟩
    | cons y ys => exact absurd (List.cons.inj h).1 differ
  | cons x xs ih =>
    cases ys with
    | nil => exact absurd (List.cons.inj h).1.symm differ
    | cons y ys =>
      simp only [List.map_cons, List.flatMap_cons, List.cons_append, List.append_assoc,
        List.cons.injEq, true_and] at h
      obtain ⟨rfl, rest⟩ :=
        inj x List.mem_cons_self y List.mem_cons_self _ _ (ends _ _) (ends _ _) h
      obtain ⟨rfl, same⟩ := ih
        (fun x hx y hy => inj x (List.mem_cons_of_mem _ hx) y (List.mem_cons_of_mem _ hy)) rest
      exact ⟨rfl, same⟩

/-- So are the parts joined with commas, if none of them starts with the mark behind them. -/
theorem join_append_inj (closes : close ∈ [']', '\x7d'])
    (starts : ∀ x, (x ∈ xs ∨ x ∈ ys) → ∃ c rest, f x = c :: rest ∧ c ≠ close)
    (inj : ∀ x ∈ xs, ∀ y ∈ ys, ∀ r r', Ends r → Ends r' → f x ++ r = f y ++ r' → x = y ∧ r = r')
    (h : Text.join [','] (xs.map f) ++ close :: r = Text.join [','] (ys.map f) ++ close :: r') :
    xs = ys ∧ r = r' := by
  cases xs with
  | nil =>
    cases ys with
    | nil => exact ⟨rfl, (List.cons.inj h).2⟩
    | cons y ys =>
      obtain ⟨c, rest, first, differ⟩ := starts y (.inr List.mem_cons_self)
      rw [List.map_cons, join_cons, first] at h
      exact absurd (List.cons.inj h).1.symm differ
  | cons x xs =>
    cases ys with
    | nil =>
      obtain ⟨c, rest, first, differ⟩ := starts x (.inl List.mem_cons_self)
      rw [List.map_cons, join_cons, first] at h
      exact absurd (List.cons.inj h).1 differ
    | cons y ys =>
      have ends (zs : List α) (r : List Char) :
          Ends ((zs.map f).flatMap (',' :: ·) ++ close :: r) :=
        ends_flatMap (List.mem_cons_of_mem _ closes) zs r
      rw [List.map_cons, List.map_cons, join_cons, join_cons, List.append_assoc,
        List.append_assoc] at h
      obtain ⟨rfl, rest⟩ :=
        inj x List.mem_cons_self y List.mem_cons_self _ _ (ends _ _) (ends _ _) h
      obtain ⟨rfl, same⟩ := flatMap_append_inj closes
        (fun x hx y hy => inj x (List.mem_cons_of_mem _ hx) y (List.mem_cons_of_mem _ hy)) rest
      exact ⟨rfl, same⟩

end Join

/-! ### Values -/

/-- All numbers in a value are finite. -/
inductive IsFinite : Json → Prop
  | null : IsFinite null
  | bool (b : Bool) : IsFinite (bool b)
  | int (n : Int) : IsFinite (int n)
  | number {x : Number} {s : String} (text : x.documentText? = some s) : IsFinite (number x)
  | string (s : String) : IsFinite (string s)
  | array {items : List Json} (items_finite : ∀ a ∈ items, IsFinite a) : IsFinite (array items)
  | object {members : List (String × Json)} (members_finite : ∀ m ∈ members, IsFinite m.2) :
      IsFinite (object members)

theorem compactItems_eq_map (items : List Json) : compactItems items = items.map compactText := by
  induction items with
  | nil => rfl
  | cons item items ih => rw [compactItems, ih, List.map_cons]

/-- A member of an object as it is written. -/
def memberText (member : String × Json) : List Char :=
  stringText member.1 ++ ':' :: compactText member.2

theorem compactMembers_eq_map (members : List (String × Json)) :
    compactMembers members = members.map memberText := by
  induction members with
  | nil => rfl
  | cons member members ih => rw [compactMembers, ih, List.map_cons, memberText]

/-- What the first character of a value tells about it: what kind of value it is, where integers and
other numbers are one. -/
def lead : Json → Char
  | null => 'n'
  | bool _ => 't'
  | int _ => '0'
  | number _ => '0'
  | string _ => '"'
  | array _ => '['
  | object _ => '\x7b'

/-- The kind of value that a character starts. -/
def leadOf (c : Char) : Char :=
  if c.isDigit || c == '-' then '0' else if c == 'f' then 't' else c

theorem leadOf_sign_append {negative : Bool} {text : List Char}
    (head : ∃ c rest, text = c :: rest ∧ c.isDigit) :
    ∃ c rest, Number.sign negative ++ text = c :: rest ∧ leadOf c = '0' := by
  obtain ⟨c, rest, rfl, digit⟩ := head
  cases negative
  · exact ⟨c, rest, rfl, by simp [leadOf, digit]⟩
  · exact ⟨'-', c :: rest, rfl, rfl⟩

theorem compactText_number {x : Number} {s : String} (text : x.documentText? = some s) :
    compactText (number x) = s.toList := by
  simp [compactText, scalarText, text]

theorem exists_lead {a : Json} (finite : IsFinite a) :
    ∃ c rest, compactText a = c :: rest ∧ leadOf c = lead a := by
  cases finite with
  | null => exact ⟨'n', _, rfl, rfl⟩
  | bool b => cases b <;> exact ⟨_, _, rfl, rfl⟩
  | int n =>
    have text : compactText (int n) = _ := int_text n
    rw [text]
    exact leadOf_sign_append (Number.head_toDigits _)
  | number text =>
    obtain ⟨negative, m, e, _, _, layout⟩ := Number.documentText?_eq_some_iff.mp text
    rw [compactText_number text, layout]
    exact leadOf_sign_append (Number.isDecimal_documentBody m e).head
  | string s => exact ⟨'"', _, rfl, rfl⟩
  | array => exact ⟨'[', _, rfl, rfl⟩
  | object => exact ⟨'\x7b', _, rfl, rfl⟩

variable {a b : Json}

/-- Values of the same text are of the same kind, whatever follows them. -/
theorem lead_eq (finite : IsFinite a) (finite' : IsFinite b)
    (h : compactText a ++ r = compactText b ++ r') : lead a = lead b := by
  obtain ⟨c, rest, text, first⟩ := exists_lead finite
  obtain ⟨c', rest', text', first'⟩ := exists_lead finite'
  rw [text, text', List.cons_append, List.cons_append, List.cons.injEq] at h
  rw [← first, ← first', h.1]

/-- No value starts with the mark at the end of a container. -/
theorem ne_close {close : Char} (closes : close ∈ [']', '\x7d']) (finite : IsFinite a) :
    ∃ c rest, compactText a = c :: rest ∧ c ≠ close := by
  obtain ⟨c, rest, text, first⟩ := exists_lead finite
  refine ⟨c, rest, text, ?_⟩
  rintro rfl
  simp only [List.mem_cons, List.not_mem_nil, or_false] at closes
  rcases closes with rfl | rfl <;> cases finite <;> exact absurd first (by simp [lead, leadOf])

theorem isNumberChar_of_lead (finite : IsFinite a) (figure : lead a = '0') :
    ∀ c ∈ compactText a, Number.isNumberChar c := by
  cases finite with
  | int n => exact isNumberChar_of_mem_int n
  | number text =>
    rw [compactText_number text]
    exact isNumberChar_of_mem_number text
  | _ => simp [lead] at figure

/-- Integers and other numbers are told by their texts. -/
theorem eq_of_lead (finite : IsFinite a) (finite' : IsFinite b) (figure : lead a = '0')
    (figure' : lead b = '0') (h : compactText a = compactText b) : a = b := by
  cases finite with
  | int m =>
    cases finite' with
    | int n => exact congrArg int (int_text_inj h)
    | number text => exact absurd (h.trans (compactText_number text)) (int_text_ne_number text m)
    | _ => simp [lead] at figure'
  | number text =>
    rw [compactText_number text] at h
    cases finite' with
    | int n => exact absurd h.symm (int_text_ne_number text n)
    | number text' =>
      rw [compactText_number text'] at h
      rw [← String.toList_injective h] at text'
      exact congrArg number (Number.documentText?_inj text text')
    | _ => simp [lead] at figure'
  | _ => simp [lead] at figure

theorem number_append_inj (finite : IsFinite a) (finite' : IsFinite b) (figure : lead a = '0')
    (ends : Ends r) (ends' : Ends r') (h : compactText a ++ r = compactText b ++ r') :
    a = b ∧ r = r' := by
  have figure' : lead b = '0' := (lead_eq finite finite' h).symm.trans figure
  obtain ⟨text, rest⟩ := append_inj_of_isNumberChar (isNumberChar_of_lead finite figure)
    (isNumberChar_of_lead finite' figure') ends ends' h
  exact ⟨eq_of_lead finite finite' figure figure' text, rest⟩

/-- Members of objects are told by their texts, if their values are. -/
theorem memberText_append_inj {x y : String × Json}
    (inj : compactText x.2 ++ r = compactText y.2 ++ r' → x.2 = y.2 ∧ r = r')
    (h : memberText x ++ r = memberText y ++ r') : x = y ∧ r = r' := by
  simp only [memberText, List.append_assoc, List.cons_append] at h
  obtain ⟨name, rest⟩ := stringText_append_inj h
  obtain ⟨value, same⟩ := inj (List.cons.inj rest).2
  exact ⟨Prod.ext name value, same⟩

/-- A value whose numbers are finite is told by its text, and so is where the text ends. -/
theorem compactText_append_inj (finite : IsFinite a) (finite' : IsFinite b)
    (ends : Ends r) (ends' : Ends r') (h : compactText a ++ r = compactText b ++ r') :
    a = b ∧ r = r' := by
  induction finite generalizing b r r' with
  | null =>
    have leads := lead_eq .null finite' h
    cases finite' with
    | null => exact ⟨rfl, List.append_cancel_left h⟩
    | _ => simp [lead] at leads
  | bool x =>
    have leads := lead_eq (.bool x) finite' h
    cases finite' with
    | bool y =>
      cases x <;> cases y
      · exact ⟨rfl, List.append_cancel_left h⟩
      · exact absurd (List.cons.inj h).1 (by decide)
      · exact absurd (List.cons.inj h).1 (by decide)
      · exact ⟨rfl, List.append_cancel_left h⟩
    | _ => simp [lead] at leads
  | int m => exact number_append_inj (.int m) finite' rfl ends ends' h
  | number text => exact number_append_inj (.number text) finite' rfl ends ends' h
  | string s =>
    have leads := lead_eq (.string s) finite' h
    cases finite' with
    | string t =>
      obtain ⟨rfl, rest⟩ := stringText_append_inj h
      exact ⟨rfl, rest⟩
    | _ => simp [lead] at leads
  | @array xs items_finite ih =>
    have leads := lead_eq (.array items_finite) finite' h
    cases finite' with
    | @array ys items_finite' =>
      simp only [compactText, compactItems_eq_map, List.cons_append, List.append_assoc,
        List.nil_append, List.cons.injEq, true_and] at h
      obtain ⟨rfl, rest⟩ := join_append_inj (by decide)
        (fun x mem => ne_close (by decide) (mem.elim (items_finite x) (items_finite' x)))
        (fun x hx y hy r r' ends ends' => ih x hx (items_finite' y hy) ends ends') h
      exact ⟨rfl, rest⟩
    | _ => simp [lead] at leads
  | @object xs members_finite ih =>
    have leads := lead_eq (.object members_finite) finite' h
    cases finite' with
    | @object ys members_finite' =>
      simp only [compactText, compactMembers_eq_map, List.cons_append, List.append_assoc,
        List.nil_append, List.cons.injEq, true_and] at h
      obtain ⟨rfl, rest⟩ := join_append_inj (by decide)
        (fun x _ => ⟨'"', _, rfl, by decide⟩)
        (fun x hx y hy r r' ends ends' =>
          memberText_append_inj (ih x hx (members_finite' y hy) ends ends')) h
      exact ⟨rfl, rest⟩
    | _ => simp [lead] at leads

/-- Values whose numbers are finite are told by their texts. -/
theorem compact_inj (finite : IsFinite a) (finite' : IsFinite b) (h : a.compact = b.compact) :
    a = b := by
  have text : compactText a ++ [] = compactText b ++ [] := by
    rw [List.append_nil, List.append_nil]
    exact String.ofList_injective h
  have ends : Ends [] := by simp [Ends]
  exact (compactText_append_inj finite finite' ends ends text).1

end ModuleSystem.Json
