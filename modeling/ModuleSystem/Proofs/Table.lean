import Mathlib.Data.List.Basic
import Mathlib.Data.List.Nodup
import Mathlib.Data.String.Basic
import ModuleSystem.Table

/-!
# Sorted tables

Tables are built by `Table.merge` alone. This file shows that a table built so is in strictly
ascending order of its keys, and what its entries are, for any order that is linear. A sorted table
is determined by the entries that are found in it.

## Main definitions

* `Table.Linear` : an order of keys in which of two different keys one comes before the other.
* `Table.Sorted` : a table in strictly ascending order of its keys.
* `Table.found?` : the entry of a key.

## Main results

* `Table.byBytes_iff` : the order of keys by their bytes is that of their UTF-8 encodings.
* `Table.Sorted.merge` : merging an entry into a sorted table gives a sorted table.
* `Table.Sorted.eq_of_key` : a sorted table has one entry of a key at most.
* `Table.Sorted.ext` : sorted tables in which the same entries are found are equal.
* `Table.Sorted.found?_foldl_merge` : what is found after one table has been merged into another.
-/

namespace ModuleSystem.Table

universe u

/-- An order of keys that is strict and in which any two different keys can be compared. -/
structure Linear (before : String → String → Bool) : Prop where
  irrefl (a : String) : ¬ before a a
  trans {a b c : String} : before a b → before b c → before a c
  total {a b : String} : a ≠ b → before a b ∨ before b a

/-- The entries stand in strictly ascending order of their keys. -/
def Sorted {α : Type u} (key : α → String) (before : String → String → Bool)
    (entries : List α) : Prop :=
  entries.Pairwise fun x y => before (key x) (key y)

/-! ### The order of bytes -/

/-- Of two characters the lesser has the lesser encoding, whatever follows. -/
private theorem utf8EncodeChar_append_lt {c d : Char} (h : c < d) (s t : List UInt8) :
    String.utf8EncodeChar c ++ s < String.utf8EncodeChar d ++ t := by
  have less : c.val.toNat < d.val.toNat := UInt32.lt_iff_toNat_lt.mp h
  have bound : d.val.toNat < 1114112 := d.valid.elim (by omega) And.right
  have toNat (n : Nat) (h : n < 256) : (UInt8.ofNat n).toNat = n := by
    rw [UInt8.toNat_ofNat', Nat.mod_eq_of_lt h]
  have digits (n : Nat) : n / 64 / 64 = n / 4096 ∧ n / 4096 / 64 = n / 262144 := by omega
  have := digits c.val.toNat
  have := digits d.val.toNat
  have lead (n : Nat) (h : n < 1114112) : n / 262144 % 8 = n / 262144 := by omega
  rw [String.utf8EncodeChar.eq_1, String.utf8EncodeChar.eq_1]
  split_ifs <;>
    simp (disch := omega) only [List.cons_append, List.nil_append, List.cons_lt_cons_iff,
      UInt8.lt_iff_toNat_lt, ← UInt8.toNat_inj, toNat, lead] <;>
    omega

private theorem flatMap_utf8EncodeChar_lt {s t : List Char} (h : s < t) :
    s.flatMap String.utf8EncodeChar < t.flatMap String.utf8EncodeChar := by
  induction s generalizing t with
  | nil =>
    cases t with
    | nil => exact absurd h (List.lt_irrefl _)
    | cons d t =>
      obtain ⟨b, rest, first⟩ := List.exists_cons_of_ne_nil (String.utf8EncodeChar_ne_nil (c := d))
      rw [List.flatMap_cons, first]
      exact List.nil_lt_cons _ _
  | cons c s ih =>
    cases t with
    | nil => exact absurd h (List.not_lt_nil _)
    | cons d t =>
      rw [List.flatMap_cons, List.flatMap_cons]
      rcases List.cons_lt_cons_iff.mp h with less | ⟨rfl, rest⟩
      · exact utf8EncodeChar_append_lt less _ _
      · exact List.append_left_lt (ih rest)

/-- The order of keys by their bytes is that of their UTF-8 encodings. -/
theorem byBytes_iff {a b : String} :
    byBytes a b ↔ a.toByteArray.data.toList < b.toByteArray.data.toList := by
  have bytes (s : String) :
      s.toByteArray.data.toList = s.toList.flatMap String.utf8EncodeChar := by
    rw [← String.ofList_toList (s := s), String.toByteArray_ofList, List.utf8Encode,
      List.toList_data_toByteArray, String.toList_ofList]
  rw [byBytes, decide_eq_true_iff, bytes, bytes, String.lt_iff_toList_lt]
  refine ⟨flatMap_utf8EncodeChar_lt, fun h => ?_⟩
  rcases lt_trichotomy a.toList b.toList with less | same | less
  · exact less
  · exact absurd (same ▸ h) (List.lt_irrefl _)
  · exact absurd h (List.lt_asymm (flatMap_utf8EncodeChar_lt less))

/-- The order of bytes is linear. -/
theorem byBytes_linear : Linear byBytes where
  irrefl a := by simp [byBytes]
  trans h h' := by
    rw [byBytes, decide_eq_true_iff] at h h' ⊢
    exact String.lt_trans h h'
  total differ := by
    rw [byBytes, byBytes, decide_eq_true_iff, decide_eq_true_iff]
    exact lt_or_gt_of_ne differ

/-! ### Merging -/

variable {α : Type u} {key : α → String} {before : String → String → Bool}
  {combine : α → α → α} {x y : α} {entries : List α}

theorem sorted_nil : Sorted key before ([] : List α) :=
  List.Pairwise.nil

/-- The keys of a sorted table are distinct. -/
theorem Sorted.distinct (linear : Linear before) (sorted : Sorted key before entries) :
    entries.Pairwise fun x y => key x ≠ key y := by
  refine List.Pairwise.imp (fun {x y} first same => ?_) sorted
  rw [same] at first
  exact linear.irrefl _ first

/-- A sorted table has one entry of a key at most. -/
theorem Sorted.eq_of_key (linear : Linear before) (sorted : Sorted key before entries)
    (hx : x ∈ entries) (hy : y ∈ entries) (h : key x = key y) : x = y := by
  induction entries with
  | nil => cases hx
  | cons z rest ih =>
    obtain ⟨first, others⟩ := List.pairwise_cons.1 sorted
    rcases List.mem_cons.1 hx with hx | hx <;> rcases List.mem_cons.1 hy with hy | hy
    · rw [hx, hy]
    · exact absurd (first y hy) (hx ▸ h ▸ linear.irrefl _)
    · exact absurd (first x hx) (hy ▸ h ▸ linear.irrefl _)
    · exact ih others hx hy

/-- An entry of a merged table is the new one, an old one, or the two combined. -/
theorem mem_merge (h : y ∈ merge key before combine x entries) :
    y = x ∨ y ∈ entries ∨ ∃ old ∈ entries, key x = key old ∧ y = combine old x := by
  induction entries with
  | nil => exact .inl (by simpa [merge] using h)
  | cons z rest ih =>
    rw [merge] at h
    split_ifs at h with same front
    · rcases List.mem_cons.1 h with rfl | h
      · exact .inr (.inr ⟨z, List.mem_cons_self, same, rfl⟩)
      · exact .inr (.inl (List.mem_cons_of_mem z h))
    · exact (List.mem_cons.1 h).imp_right .inl
    · rcases List.mem_cons.1 h with rfl | h
      · exact .inr (.inl List.mem_cons_self)
      · refine (ih h).imp_right (Or.imp (List.mem_cons_of_mem z) ?_)
        exact fun ⟨old, mem, rest⟩ => ⟨old, List.mem_cons_of_mem z mem, rest⟩

/-- Merging an entry into a sorted table gives a sorted table, if combining keeps the key. -/
theorem Sorted.merge (linear : Linear before)
    (keeps : ∀ old new, key new = key old → key (combine old new) = key old)
    (sorted : Sorted key before entries) (x : α) :
    Sorted key before (Table.merge key before combine x entries) := by
  induction entries with
  | nil => exact List.pairwise_singleton _ _
  | cons z rest ih =>
    obtain ⟨first, others⟩ := List.pairwise_cons.1 sorted
    rw [Table.merge]
    split_ifs with same front
    · exact List.pairwise_cons.2 ⟨fun y hy => keeps z x same ▸ first y hy, others⟩
    · -- the new entry comes first
      refine List.pairwise_cons.2 ⟨fun y hy => ?_, sorted⟩
      rcases List.mem_cons.1 hy with rfl | hy
      · exact front
      · exact linear.trans front (first y hy)
    · have behind : before (key z) (key x) := (linear.total same).resolve_left front
      refine List.pairwise_cons.2 ⟨fun y hy => ?_, ih others⟩
      rcases mem_merge hy with rfl | hy | ⟨old, mem, same, rfl⟩
      · exact behind
      · exact first y hy
      · exact keeps old x same ▸ first old mem

/-- Binding a name in a sorted table gives a sorted table. -/
theorem Sorted.put {β : Type u} {bindings : List (String × β)} (linear : Linear before)
    (sorted : Sorted Prod.fst before bindings) (name : String) (value : β) :
    Sorted Prod.fst before (Table.put before name value bindings) :=
  sorted.merge linear (fun _ _ same => same) (name, value)

/-! ### Tables of distinct entries -/

variable {upper others : List α}

/-- Sorted tables of the same entries are equal. -/
theorem Sorted.eq_of_perm (linear : Linear before) (sorted : Sorted key before entries)
    (sorted' : Sorted key before others) (same : entries.Perm others) : entries = others := by
  refine same.eq_of_pairwise (fun x y _ _ hxy hyx => ?_) sorted sorted'
  exact absurd (linear.trans hxy hyx) (linear.irrefl _)

/-- An entry of a new key is added to a table, wherever it comes to stand. -/
theorem merge_perm (new : ∀ y ∈ entries, key x ≠ key y) :
    (merge key before combine x entries).Perm (x :: entries) := by
  induction entries with
  | nil => rfl
  | cons y rest ih =>
    rw [merge, if_neg (new y List.mem_cons_self)]
    split_ifs
    · rfl
    · exact ((ih fun z hz => new z (List.mem_cons_of_mem y hz)).cons y).trans (.swap x y rest)

/-- Entries of distinct keys are added to a table one after the other. -/
theorem foldl_merge_perm (distinct : (upper ++ entries).Pairwise fun x y => key x ≠ key y) :
    (upper.foldl (fun table x => merge key before combine x table) entries).Perm
      (upper ++ entries) := by
  induction upper generalizing entries with
  | nil => rfl
  | cons x rest ih =>
    obtain ⟨first, others⟩ := List.pairwise_cons.1 distinct
    have added : (merge key before combine x entries).Perm (x :: entries) :=
      merge_perm fun y hy => first y (List.mem_append_right _ hy)
    have moved : (rest ++ merge key before combine x entries).Perm (x :: (rest ++ entries)) :=
      (added.append_left rest).trans List.perm_middle
    refine (ih ?_).trans moved
    exact moved.symm.pairwise distinct fun {y z} differ same => differ same.symm

/-- A table of bindings of distinct names has just these bindings. -/
theorem ofList_perm {β : Type u} {bindings : List (String × β)}
    (before : String → String → Bool) (distinct : bindings.Pairwise fun x y => x.1 ≠ y.1) :
    (ofList before bindings).Perm bindings := by
  have perm : (bindings.foldl (fun table x => merge Prod.fst before (fun _ new => new) x table)
      []).Perm (bindings ++ []) := foldl_merge_perm (by simpa using distinct)
  rwa [List.append_nil] at perm

/-! ### What is found in a table -/

/-- The entry of a key. -/
def found? (key : α → String) (name : String) (entries : List α) : Option α :=
  entries.find? fun x => key x = name

variable {name : String}

theorem found?_cons :
    found? key name (x :: entries) = if key x = name then some x else found? key name entries := by
  by_cases h : key x = name <;> simp [found?, h]

theorem found?_eq_none_iff : found? key name entries = none ↔ ∀ x ∈ entries, key x ≠ name := by
  simp [found?]

/-- What is found in a sorted table are its entries. -/
theorem Sorted.found?_eq_some_iff (linear : Linear before) (sorted : Sorted key before entries) :
    found? key name entries = some x ↔ x ∈ entries ∧ key x = name := by
  constructor
  · intro h
    exact ⟨List.mem_of_find?_eq_some h, by simpa using List.find?_some h⟩
  · rintro ⟨mem, rfl⟩
    cases found : found? key (key x) entries with
    | none => exact absurd rfl (found?_eq_none_iff.mp found x mem)
    | some y =>
      have same : key y = key x := by simpa using List.find?_some found
      rw [sorted.eq_of_key linear (List.mem_of_find?_eq_some found) mem same]

/-- Sorted tables in which the same entries are found are equal. -/
theorem Sorted.ext (linear : Linear before) (sorted : Sorted key before entries)
    (sorted' : Sorted key before others)
    (same : ∀ name, found? key name entries = found? key name others) : entries = others := by
  have nodup {l : List α} (h : Sorted key before l) : l.Nodup :=
    (h.distinct linear).imp fun differ same => differ (congrArg key same)
  have perm : entries.Perm others := by
    rw [List.perm_ext_iff_of_nodup (nodup sorted) (nodup sorted')]
    intro x
    have h : found? key (key x) entries = some x ↔ x ∈ entries ∧ key x = key x :=
      sorted.found?_eq_some_iff linear
    have h' : found? key (key x) others = some x ↔ x ∈ others ∧ key x = key x :=
      sorted'.found?_eq_some_iff linear
    rw [same] at h
    simpa using h.symm.trans h'
  exact sorted.eq_of_perm linear sorted' perm

/-- What is found after an entry has been merged into a sorted table. -/
theorem Sorted.found?_merge (linear : Linear before)
    (keeps : ∀ old new, key new = key old → key (combine old new) = key old)
    (sorted : Sorted key before entries) :
    found? key name (Table.merge key before combine x entries) =
      if key x = name then some ((found? key name entries).elim x (combine · x))
      else found? key name entries := by
  induction entries with
  | nil => simp [Table.merge, found?]
  | cons y rest ih =>
    obtain ⟨first, others⟩ := List.pairwise_cons.1 sorted
    rw [Table.merge]
    split_ifs with same found front found found
    · rw [found?_cons, keeps y x same, ← same, if_pos found, found?_cons, ← same, if_pos found]
      rfl
    · rw [found?_cons, keeps y x same, ← same, if_neg found, found?_cons, ← same, if_neg found]
    · -- the new entry comes first, so that none of its key is there
      have absent : found? key name (y :: rest) = none := by
        refine found?_eq_none_iff.mpr fun z hz same' => ?_
        rcases List.mem_cons.1 hz with rfl | hz
        · exact same (found.trans same'.symm)
        · have behind : before (key x) (key z) := linear.trans front (first z hz)
          exact linear.irrefl _ (found.trans same'.symm ▸ behind)
      rw [found?_cons, if_pos found, absent]
      rfl
    · rw [found?_cons, if_neg found]
    · subst found
      rw [found?_cons, if_neg fun h => same h.symm, ih others, if_pos rfl, found?_cons,
        if_neg fun h => same h.symm]
    · rw [found?_cons, ih others, if_neg found, found?_cons]

/-- An entry of a key that a sorted table has leaves it as long as it is. -/
theorem Sorted.length_merge_of_mem (linear : Linear before) (sorted : Sorted key before entries)
    (mem : y ∈ entries) (same : key x = key y) :
    (Table.merge key before combine x entries).length = entries.length := by
  induction entries with
  | nil => cases mem
  | cons z rest ih =>
    obtain ⟨first, others⟩ := List.pairwise_cons.1 sorted
    have later (differ : key x ≠ key z) : y ∈ rest :=
      (List.mem_cons.1 mem).resolve_left fun eq => differ (eq ▸ same)
    rw [Table.merge]
    split_ifs with here front
    · rfl
    · -- the entry of the key would stand behind one that comes after it
      exact absurd (linear.trans front (same ▸ first y (later here))) (linear.irrefl _)
    · simpa using ih others (later here)

/-- Merging an entry into a sorted table adds one, unless there is one of its key. -/
theorem Sorted.length_merge (linear : Linear before) (sorted : Sorted key before entries) :
    (Table.merge key before combine x entries).length =
      entries.length + if (found? key (key x) entries).isSome then 0 else 1 := by
  cases found : found? key (key x) entries with
  | none =>
    have new : ∀ y ∈ entries, key x ≠ key y := fun y mem =>
      (found?_eq_none_iff.mp found y mem).symm
    have perm : (Table.merge key before combine x entries).Perm (x :: entries) := merge_perm new
    simpa using perm.length_eq
  | some old =>
    obtain ⟨mem, same⟩ := (sorted.found?_eq_some_iff linear).mp found
    exact sorted.length_merge_of_mem linear mem same.symm
/-- What is found after the entries of one table have been merged into another. -/
theorem Sorted.found?_foldl_merge (linear : Linear before)
    (keeps : ∀ old new, key new = key old → key (combine old new) = key old)
    (sorted : Sorted key before entries) (distinct : upper.Pairwise fun x y => key x ≠ key y) :
    found? key name (upper.foldl (fun table x => Table.merge key before combine x table) entries) =
      Option.merge combine (found? key name entries) (found? key name upper) := by
  induction upper generalizing entries with
  | nil => simp [found?, Option.merge_none_right]
  | cons x rest ih =>
    obtain ⟨first, others⟩ := List.pairwise_cons.1 distinct
    rw [List.foldl_cons, ih (sorted.merge linear keeps x) others, sorted.found?_merge linear keeps,
      found?_cons]
    split_ifs with found
    · have absent : found? key name rest = none :=
        found?_eq_none_iff.mpr fun y hy same => first y hy (found.trans same.symm)
      rw [absent, Option.merge_none_right]
      cases found? key name entries <;> rfl
    · rfl

/-! ### Values -/

variable {β : Type u} {bindings bindings' : List (String × α)}

/-- A table of bindings has the entry of a name and of the value found under it. -/
theorem found?_fst (name : String) (bindings : List (String × α)) :
    found? Prod.fst name bindings = (get? name bindings).map (Prod.mk name) := by
  induction bindings with
  | nil => rfl
  | cons binding rest ih =>
    obtain ⟨other, value⟩ := binding
    rw [found?_cons, ih, get?, get?, List.lookup_cons]
    by_cases same : other = name
    · simp [same]
    · simp [same, beq_false_of_ne (Ne.symm same)]

theorem get?_cons (name other : String) (value : α) (bindings : List (String × α)) :
    get? name ((other, value) :: bindings) =
      if name = other then some value else get? name bindings := by
  rw [get?, List.lookup_cons]
  by_cases same : name = other
  · simp [same]
  · simp [same, beq_false_of_ne same, get?]

/-- What is found after a name has been bound. -/
theorem get?_put (before : String → String → Bool) (other : String) (value : α)
    (bindings : List (String × α)) : get? name (put before other value bindings) =
      if name = other then some value else get? name bindings := by
  induction bindings with
  | nil => exact get?_cons ..
  | cons binding rest ih =>
    obtain ⟨old, _⟩ := binding
    simp only [put] at ih
    simp only [put, merge]
    split_ifs with same front found found found <;> simp_all [get?_cons]

/-- Sorted tables in which the same values are found are equal. -/
theorem Sorted.ext_get? (linear : Linear before) (sorted : Sorted Prod.fst before bindings)
    (sorted' : Sorted Prod.fst before bindings')
    (same : ∀ name, get? name bindings = get? name bindings') : bindings = bindings' :=
  sorted.ext linear sorted' fun name => by rw [found?_fst, found?_fst, same]

/-- What is found in a table whose values have been changed is the changed value. -/
theorem get?_map (f : α → β) (name : String) (bindings : List (String × α)) :
    get? name (bindings.map (Prod.map id f)) = (get? name bindings).map f := by
  induction bindings with
  | nil => rfl
  | cons binding rest ih =>
    rw [get?] at ih
    rw [get?, get?, List.map_cons, List.lookup_cons, List.lookup_cons, ih]
    simp only [Prod.map_fst, Prod.map_snd, id]
    split <;> rfl

/-- A table whose values have been changed is sorted as before. -/
theorem sorted_map_iff (f : α → β) :
    Sorted Prod.fst before (bindings.map (Prod.map id f)) ↔ Sorted Prod.fst before bindings := by
  simp [Sorted, List.pairwise_map]

end ModuleSystem.Table
