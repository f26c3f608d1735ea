import Mathlib.Data.String.Basic
import ModuleSystem.ImportMap.Document
import ModuleSystem.Proofs.Table

/-!
# The order of import maps

Resolution takes the first mapping that fits, and so depends on the order in which mappings and
scopes are kept. An import map is either read from a document or composed of two others; this file
shows that all three tables of every such map are sorted, the longest keys first.

## Main definitions

* `ImportMap.Made` : the maps that documents and compositions give.
* `ImportMap.Ordered` : a map whose tables are all sorted.

## Main results

* `Specifier.keyBefore_linear` : the order of keys is linear.
* `ImportMap.Made.ordered` : every map that documents and compositions give is ordered.
-/

namespace ModuleSystem

/-! ### Keys -/

theorem Specifier.keyBefore_iff {a b : String} :
    keyBefore a b ↔ b.utf8ByteSize < a.utf8ByteSize ∨ a.utf8ByteSize = b.utf8ByteSize ∧ a < b := by
  simp [keyBefore, Table.byBytes]

/-- The order of keys is linear. -/
theorem Specifier.keyBefore_linear : Table.Linear keyBefore where
  irrefl a := by simp [keyBefore_iff]
  trans {a b c} hab hbc := by
    rw [keyBefore_iff] at *
    rcases hab with hab | ⟨hab, less⟩ <;> rcases hbc with hbc | ⟨hbc, less'⟩
    · exact .inl (hbc.trans hab)
    · exact .inl (hbc ▸ hab)
    · exact .inl (hab ▸ hbc)
    · exact .inr ⟨hab.trans hbc, less.trans less'⟩
  total {a b} ne := by
    rw [keyBefore_iff, keyBefore_iff]
    rcases lt_trichotomy a.utf8ByteSize b.utf8ByteSize with h | h | h
    · exact .inr (.inl h)
    · exact (lt_or_gt_of_ne ne).imp (fun less => .inr ⟨h, less⟩) fun less => .inr ⟨h.symm, less⟩
    · exact .inl (.inl h)

/-! ### Mappings -/

/-- Mappings in the order of their keys. -/
def Mappings.Ordered (mappings : Mappings) : Prop :=
  Table.Sorted Prod.fst Specifier.keyBefore mappings

namespace Mappings.Ordered

variable {mappings : Mappings}

theorem nil : Mappings.Ordered [] :=
  Table.sorted_nil

theorem put (ordered : mappings.Ordered) (key : String) (address : Url) :
    (mappings.put key address).Ordered :=
  Table.Sorted.put Specifier.keyBefore_linear ordered key address

theorem overlay (ordered : mappings.Ordered) (upper : Mappings) :
    (mappings.overlay upper).Ordered := by
  induction upper generalizing mappings with
  | nil => exact ordered
  | cons entry rest ih => exact ih (ordered.put entry.1 entry.2)

/-- An ordered table has one address for a key at most. -/
theorem address_unique (ordered : mappings.Ordered) {key : String} {address other : Url}
    (h : (key, address) ∈ mappings) (h' : (key, other) ∈ mappings) : address = other :=
  congrArg Prod.snd (Table.Sorted.eq_of_key Specifier.keyBefore_linear ordered h h' rfl)

end Mappings.Ordered

/-! ### Scopes -/

/-- Scopes in the order of their roots, each with mappings in order. -/
structure Scope.Ordered (scopes : List Scope) : Prop where
  sorted : Table.Sorted (fun scope => scope.root.href) Specifier.keyBefore scopes
  mappings {scope : Scope} : scope ∈ scopes → scope.mappings.Ordered

namespace Scope.Ordered

variable {scopes : List Scope}

theorem nil : Scope.Ordered [] where
  sorted := Table.sorted_nil
  mappings h := by cases h

theorem putInto (ordered : Scope.Ordered scopes) {scope : Scope}
    (own : scope.mappings.Ordered) : Scope.Ordered (scope.putInto scopes) where
  sorted := by
    rw [Scope.putInto]
    apply Table.Sorted.merge Specifier.keyBefore_linear _ ordered.sorted
    exact fun _ _ _ => rfl
  mappings h := by
    rcases Table.mem_merge h with rfl | h | ⟨old, mem, -, rfl⟩
    · exact own
    · exact ordered.mappings h
    · exact (ordered.mappings mem).overlay scope.mappings

theorem foldl_putInto (ordered : Scope.Ordered scopes) {upper : List Scope}
    (own : ∀ scope ∈ upper, scope.mappings.Ordered) :
    Scope.Ordered (upper.foldl (fun scopes scope => scope.putInto scopes) scopes) := by
  induction upper generalizing scopes with
  | nil => exact ordered
  | cons scope rest ih =>
    exact ih (ordered.putInto (own scope List.mem_cons_self))
      fun other h => own other (List.mem_cons_of_mem scope h)

end Scope.Ordered

namespace ImportMap

/-! ### Documents -/

theorem addEntry_ordered {base : Url} {scope : Option String}
    {read : Mappings × List Diagnostic} (ordered : read.1.Ordered) (entry : String × Json) :
    (addEntry base scope read entry).1.Ordered := by
  rw [addEntry]
  cases readEntry base entry.1 entry.2 with
  | error problem => exact ordered
  | ok added => exact ordered.put added.1 added.2

theorem readMappings_ordered (base : Url) (scope : Option String)
    (entries : List (String × Json)) : (readMappings base scope entries).1.Ordered :=
  List.foldlRecOn (motive := fun read : Mappings × List Diagnostic => read.1.Ordered) entries _
    Mappings.Ordered.nil fun _ ordered entry _ => addEntry_ordered ordered entry

theorem addScope_ordered {base : Url} {read : List Scope × List Diagnostic}
    (ordered : Scope.Ordered read.1) (member : String × Json) :
    Scope.Ordered (addScope base read member).1 := by
  obtain ⟨key, body⟩ := member
  cases body with
  | object entries =>
    rw [addScope]
    cases Specifier.resolveAgainst key base with
    | error reason => exact ordered
    | ok root => exact ordered.putInto (readMappings_ordered base (some key) entries)
  | null | bool | int | number | string | array => exact ordered

/-! ### Maps -/

/-- The maps that documents and compositions give. -/
inductive Made : ImportMap → Prop where
  | normalized {document : Json} {base : Url} {m : ImportMap} {diagnostics : List Diagnostic} :
    normalize document base = .ok (m, diagnostics) → Made m
  | composed {lower upper : ImportMap} : Made lower → Made upper → Made (lower.compose upper)

/-- All tables of the map are sorted. -/
structure Ordered (m : ImportMap) : Prop where
  imports : m.imports.Ordered
  scopes : Scope.Ordered m.scopes

theorem Ordered.compose {lower upper : ImportMap} (hl : lower.Ordered) (hu : upper.Ordered) :
    (lower.compose upper).Ordered where
  imports := hl.imports.overlay upper.imports
  scopes := hl.scopes.foldl_putInto fun _ => hu.scopes.mappings

theorem normalize_ordered {document : Json} {base : Url} {m : ImportMap}
    {diagnostics : List Diagnostic} (h : normalize document base = .ok (m, diagnostics)) :
    m.Ordered := by
  cases document with
  | object members =>
    cases h
    exact ⟨readMappings_ordered base none _,
      List.foldlRecOn (motive := fun read : List Scope × List Diagnostic => Scope.Ordered read.1)
        _ _ Scope.Ordered.nil fun _ ordered member _ => addScope_ordered ordered member⟩
  | null | bool | int | number | string | array => cases h

/-- Every map that documents and compositions give is ordered. -/
theorem Made.ordered {m : ImportMap} (made : m.Made) : m.Ordered := by
  induction made with
  | normalized h => exact normalize_ordered h
  | composed _ _ hl hu => exact hl.compose hu

end ImportMap

end ModuleSystem
