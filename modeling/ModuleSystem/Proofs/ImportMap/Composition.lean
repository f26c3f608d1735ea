import ModuleSystem.Proofs.ImportMap.Entries
import ModuleSystem.Proofs.ImportMap.Reference

/-!
# Composition of import maps

An import map is a value of its own: its tables stand in one order only, so that maps in which the
same addresses are found are equal. Composition is determined by what is found in its result, and
from this its laws follow.

## Main definitions

* `Specifier.Precedes` : the order of keys, said of their UTF-8 encodings.
* `ImportMap.Canonical` : all tables of a map are in that order, and no key is empty.
* `ImportMap.address?` : the address that a map has for a key, in a scope or among the imports.

## Main results

* `Mappings.Ordered.get?_overlay`, `ImportMap.Ordered.scope?_compose` : what is found in a
  composition.
* `ImportMap.Made.compose_laws` : the maps that documents and compositions give are canonical, and
  form an idempotent monoid in which the upper map wins.
-/

namespace ModuleSystem

/-- A key with more bytes precedes one with fewer; of two equally long ones, the one with the
lesser bytes. -/
def Specifier.Precedes (a b : String) : Prop :=
  b.toByteArray.size < a.toByteArray.size ∨
    a.toByteArray.size = b.toByteArray.size ∧
      a.toByteArray.data.toList < b.toByteArray.data.toList

theorem Specifier.precedes_iff {a b : String} : Precedes a b ↔ keyBefore a b := by
  rw [keyBefore, Bool.or_eq_true, Bool.and_eq_true, Table.byBytes_iff, beq_iff_eq,
    decide_eq_true_iff]
  rfl

/-! ### Mappings -/

namespace Mappings

/-- The keys stand in strictly ascending order, and none is empty. -/
structure Canonical (mappings : Mappings) : Prop where
  sorted : (mappings.map Prod.fst).Pairwise Specifier.Precedes
  distinct : (mappings.map Prod.fst).Nodup
  nonempty : "" ∉ mappings.map Prod.fst

variable {lower upper : Mappings} {key : String}

theorem get?_eq (mappings : Mappings) (key : String) :
    mappings.get? key = (Table.found? Prod.fst key mappings).map Prod.snd := by
  induction mappings with
  | nil => rfl
  | cons entry rest ih =>
    obtain ⟨name, address⟩ := entry
    rw [Table.found?_cons]
    by_cases same : name = key
    · simp [get?, Table.get?, same]
    · rw [if_neg same, ← ih]
      have other : (key == name) = false := by simpa using Ne.symm same
      simp [get?, Table.get?, List.lookup_cons, other]

/-- The entry that is found under a key has this key. -/
theorem found?_eq (mappings : Mappings) (key : String) :
    Table.found? Prod.fst key mappings = (mappings.get? key).map (key, ·) := by
  rw [get?_eq]
  cases found : Table.found? Prod.fst key mappings with
  | none => rfl
  | some entry =>
    have same : entry.1 = key := by simpa using List.find?_some found
    rw [Option.map_some, Option.map_some, ← same]

namespace Ordered

/-- Ordered mappings in which the same addresses are found are equal. -/
theorem ext (hl : lower.Ordered) (hu : upper.Ordered)
    (same : ∀ key, lower.get? key = upper.get? key) : lower = upper := by
  refine Table.Sorted.ext Specifier.keyBefore_linear hl hu fun key => ?_
  rw [found?_eq, found?_eq, same]

/-- In an overlay the upper mappings win. -/
theorem get?_overlay (hl : lower.Ordered) (hu : upper.Ordered) (key : String) :
    (lower.overlay upper).get? key = (upper.get? key).or (lower.get? key) := by
  have found : Table.found? Prod.fst key (lower.overlay upper) =
      Option.merge (fun _ new => new) (Table.found? Prod.fst key lower)
        (Table.found? Prod.fst key upper) :=
    Table.Sorted.found?_foldl_merge Specifier.keyBefore_linear (fun _ _ same => same) hl
      (Table.Sorted.distinct Specifier.keyBefore_linear hu)
  rw [get?_eq, found, found?_eq, found?_eq]
  cases lower.get? key <;> cases upper.get? key <;> rfl

/-- What is found after one more entry has been put into the mappings. -/
theorem get?_put (hl : lower.Ordered) (name : String) (address : Url) (key : String) :
    (lower.put name address).get? key = if name = key then some address else lower.get? key := by
  have single : Mappings.Ordered [(name, address)] := List.pairwise_singleton _ _
  rw [show lower.put name address = lower.overlay [(name, address)] from rfl,
    hl.get?_overlay single, get?_eq [(name, address)], Table.found?_cons]
  split_ifs <;> rfl

theorem overlay_assoc {mappings : Mappings} (h : mappings.Ordered) (hl : lower.Ordered)
    (hu : upper.Ordered) :
    (mappings.overlay lower).overlay upper = mappings.overlay (lower.overlay upper) := by
  refine ext ((h.overlay lower).overlay upper) (h.overlay _) fun key => ?_
  rw [(h.overlay lower).get?_overlay hu, h.get?_overlay hl, h.get?_overlay (hl.overlay upper),
    hl.get?_overlay hu, Option.or_assoc]

theorem nil_overlay (hu : upper.Ordered) : Mappings.overlay [] upper = upper := by
  refine ext (nil.overlay upper) hu fun key => ?_
  rw [nil.get?_overlay hu]
  exact Option.or_none

theorem overlay_self (hl : lower.Ordered) : lower.overlay lower = lower := by
  refine ext (hl.overlay lower) hl fun key => ?_
  rw [hl.get?_overlay hl, Option.or_self]

end Ordered

end Mappings

namespace ImportMap

/-- All tables of the map stand in strictly ascending order of their keys, and no key is empty. -/
structure Canonical (m : ImportMap) : Prop where
  imports : m.imports.Canonical
  sorted : (m.scopes.map fun scope => scope.root.href).Pairwise Specifier.Precedes
  distinct : (m.scopes.map fun scope => scope.root.href).Nodup
  mappings : ∀ scope ∈ m.scopes, scope.mappings.Canonical

/-- The scope with a root. -/
def scope? (m : ImportMap) (root : String) : Option Scope :=
  Table.found? (fun scope => scope.root.href) root m.scopes

/-- The address that a map has for a key in the scope with a root, or among the imports. -/
def address? (m : ImportMap) (root : Option String) (key : String) : Option Url :=
  match root with
  | none => m.imports.get? key
  | some root => (m.scope? root).bind fun scope => scope.mappings.get? key

/-- The roots of the scopes. -/
def roots (m : ImportMap) : List String :=
  m.scopes.map fun scope => scope.root.href

variable {m lower upper a b c : ImportMap} {root key : String}

/-! ### Keys -/

theorem normalizedKey_ne {base : Url} {specifier : String} (h : specifier ≠ "") :
    normalizedKey base specifier ≠ "" := by
  have written (u : Url) : u.href ≠ "" := fun empty => by
    have := congrArg String.toList empty
    simp [Url.href, Url.beforePath] at this
  rw [normalizedKey]
  split
  · exact written _
  · exact h
  · exact h

/-- No key of the map is empty. -/
theorem Made.keys_ne (made : m.Made) : m.All fun key _ => key ≠ "" :=
  made.madeFrom.all fun _ _ _ _ _ _ _ _ read => by
    obtain ⟨ne, -, -, rfl⟩ := readEntry_eq_ok_iff.mp read
    exact normalizedKey_ne ne

/-- A table that is sorted is sorted by bytes, and has no duplicates. -/
private theorem canonical_of_sorted {α : Type} {name : α → String} {entries : List α}
    (sorted : Table.Sorted name Specifier.keyBefore entries) :
    (entries.map name).Pairwise Specifier.Precedes ∧ (entries.map name).Nodup :=
  ⟨List.pairwise_map.mpr (List.Pairwise.imp Specifier.precedes_iff.mpr sorted),
    List.pairwise_map.mpr (sorted.distinct Specifier.keyBefore_linear)⟩

theorem Made.canonical (made : m.Made) : m.Canonical := by
  have ordered := made.ordered
  obtain ⟨imports, distinct⟩ := canonical_of_sorted ordered.imports
  obtain ⟨scopes, distinct'⟩ := canonical_of_sorted ordered.scopes.sorted
  have nonempty {mappings : Mappings} (h : ∀ entry ∈ mappings, entry.1 ≠ "") :
      "" ∉ mappings.map Prod.fst := fun mem =>
    (List.mem_map.mp mem).elim fun entry found => h entry found.1 found.2
  refine ⟨⟨imports, distinct, nonempty made.keys_ne.imports⟩, scopes, distinct', fun scope mem => ?_⟩
  obtain ⟨sorted, distinct⟩ := canonical_of_sorted (ordered.scopes.mappings mem)
  exact ⟨sorted, distinct, nonempty (made.keys_ne.scopes scope mem)⟩

/-! ### What is found in a composition -/

/-- A scope over another one of the same root. -/
def scopeOver (old new : Scope) : Scope :=
  { old with mappings := old.mappings.overlay new.mappings }

/-- The scope of a root in a composition is put together from those of both maps. -/
theorem Ordered.scope?_compose (hl : lower.Ordered) (hu : upper.Ordered) (root : String) :
    (lower.compose upper).scope? root =
      Option.merge scopeOver (lower.scope? root) (upper.scope? root) :=
  Table.Sorted.found?_foldl_merge Specifier.keyBefore_linear (fun _ _ _ => rfl) hl.scopes.sorted
    (hu.scopes.sorted.distinct Specifier.keyBefore_linear)

theorem Ordered.mem_of_scope? {scope : Scope} (h : m.Ordered) (found : m.scope? root = some scope) :
    scope ∈ m.scopes ∧ scope.root.href = root :=
  (h.scopes.sorted.found?_eq_some_iff Specifier.keyBefore_linear).mp found

theorem Ordered.mem_roots_iff (h : m.Ordered) : root ∈ m.roots ↔ (m.scope? root).isSome := by
  rw [Option.isSome_iff_exists, roots, List.mem_map]
  exact exists_congr fun scope =>
    (h.scopes.sorted.found?_eq_some_iff Specifier.keyBefore_linear).symm

/-- Ordered maps in which the same is found are equal. -/
theorem Ordered.ext (ha : a.Ordered) (hb : b.Ordered) (imports : a.imports = b.imports)
    (scopes : ∀ root, a.scope? root = b.scope? root) : a = b := by
  have same : a.scopes = b.scopes :=
    Table.Sorted.ext Specifier.keyBefore_linear ha.scopes.sorted hb.scopes.sorted scopes
  cases a
  cases b
  cases imports
  cases same
  rfl

theorem ordered_empty : Ordered {} :=
  ⟨Mappings.Ordered.nil, Scope.Ordered.nil⟩

theorem Ordered.compose_assoc (ha : a.Ordered) (hb : b.Ordered) (hc : c.Ordered) :
    (a.compose b).compose c = a.compose (b.compose c) := by
  refine ext ((ha.compose hb).compose hc) (ha.compose (hb.compose hc))
    (ha.imports.overlay_assoc hb.imports hc.imports) fun root => ?_
  rw [(ha.compose hb).scope?_compose hc, ha.scope?_compose hb, ha.scope?_compose (hb.compose hc),
    hb.scope?_compose hc]
  cases fa : a.scope? root <;> cases fb : b.scope? root <;> cases fc : c.scope? root <;> try rfl
  have assoc := (ha.scopes.mappings (ha.mem_of_scope? fa).1).overlay_assoc
    (hb.scopes.mappings (hb.mem_of_scope? fb).1) (hc.scopes.mappings (hc.mem_of_scope? fc).1)
  simp only [Option.merge_some_some, scopeOver, assoc]

theorem Ordered.empty_compose (ha : a.Ordered) : ImportMap.compose {} a = a := by
  refine ext (ordered_empty.compose ha) ha ha.imports.nil_overlay fun root => ?_
  rw [ordered_empty.scope?_compose ha]
  exact Option.merge_none_left

theorem Ordered.compose_self (ha : a.Ordered) : a.compose a = a := by
  refine ext (ha.compose ha) ha ha.imports.overlay_self fun root => ?_
  rw [ha.scope?_compose ha]
  cases found : a.scope? root with
  | none => rfl
  | some scope =>
    have self := (ha.scopes.mappings (ha.mem_of_scope? found).1).overlay_self
    simp only [Option.merge_some_some, scopeOver, self]

/-- In a composition the address of the upper map is found if it has one, and else that of the lower
map. -/
theorem Ordered.address?_compose (hl : lower.Ordered) (hu : upper.Ordered) (root : Option String)
    (key : String) :
    (lower.compose upper).address? root key =
      (upper.address? root key).or (lower.address? root key) := by
  cases root with
  | none => exact hl.imports.get?_overlay hu.imports key
  | some root =>
    simp only [address?, hl.scope?_compose hu]
    cases fl : lower.scope? root with
    | none =>
      cases upper.scope? root with
      | none => rfl
      | some new => exact Option.or_none.symm
    | some old =>
      cases fu : upper.scope? root with
      | none => rfl
      | some new =>
        exact (hl.scopes.mappings (hl.mem_of_scope? fl).1).get?_overlay
          (hu.scopes.mappings (hu.mem_of_scope? fu).1) key

theorem Ordered.mem_roots_compose (hl : lower.Ordered) (hu : upper.Ordered) :
    root ∈ (lower.compose upper).roots ↔ root ∈ lower.roots ∨ root ∈ upper.roots := by
  rw [(hl.compose hu).mem_roots_iff, hl.mem_roots_iff, hu.mem_roots_iff, hl.scope?_compose hu]
  cases lower.scope? root <;> cases upper.scope? root <;> simp

/-- The maps that documents and compositions give are canonical. Composition is associative and
idempotent, the empty map is neutral, and the address that a composition has for a key is that of
the upper map, if it has one, and else that of the lower map. -/
theorem Made.compose_laws (ha : a.Made) (hb : b.Made) (hc : c.Made) :
    a.Canonical ∧
    (a.compose b).compose c = a.compose (b.compose c) ∧
    (ImportMap.compose {} a = a ∧ a.compose {} = a) ∧
    a.compose a = a ∧
    (∀ root key, (a.compose b).address? root key = (b.address? root key).or (a.address? root key)) ∧
    ∀ root, root ∈ (a.compose b).roots ↔ root ∈ a.roots ∨ root ∈ b.roots :=
  ⟨ha.canonical, ha.ordered.compose_assoc hb.ordered hc.ordered,
    ⟨ha.ordered.empty_compose, rfl⟩, ha.ordered.compose_self,
    ha.ordered.address?_compose hb.ordered, fun _ => ha.ordered.mem_roots_compose hb.ordered⟩

/-- A document that maps the directory `lib/` anew, everywhere and below `x:/app/`. -/
def renewedDocument : Json :=
  .object [("imports", .object [("lib/", .string "x:/new/")]),
    ("scopes", .object [("x:/app/", .object [("lib/b", .string "x:/new/b")])])]

theorem Made.compose_laws_renewed :
    layered.Made ∧ (ofDocument ownDocument).Made ∧ (ofDocument renewedDocument).Made ∧
    (layered.compose (ofDocument ownDocument)).compose (ofDocument renewedDocument) =
      layered.compose ((ofDocument ownDocument).compose (ofDocument renewedDocument)) ∧
    (layered.compose (ofDocument ownDocument)).address? (some "x:/app/") "lib/" =
      some (pathUrl "/own/") ∧
    "x:/app/" ∈ (layered.compose (ofDocument ownDocument)).roots := by
  have base : layered.Made := .composed (made_ofDocument _) (made_ofDocument _)
  have own : (ofDocument ownDocument).Made := made_ofDocument _
  have renewed : (ofDocument renewedDocument).Made := made_ofDocument _
  obtain ⟨-, assoc, -, -, address, roots⟩ := compose_laws base own renewed
  refine ⟨base, own, renewed, assoc, ?_, (roots _).mpr (.inr List.mem_cons_self)⟩
  rw [address]
  rfl

end ImportMap

end ModuleSystem
