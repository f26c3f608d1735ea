import ModuleSystem.Proofs.ImportMap.Directories
import ModuleSystem.Proofs.ImportMap.Roundtrip

/-!
# Absolute documents

A document without a place has every URL of a map in its full written form. Read against the URL of
the first document it gives the same map again: an absolute key is its own key, a bare specifier
stays bare, and a specifier that has no URL has none the second time either.

## Main definitions

* `ImportMap.Mentions` : the URLs that occur in the map of a document.

## Main results

* `ImportMap.normalize_toDocument_none` : the map of a document is read back from its absolute
  document, if each URL in it is read back from its written form.
-/

namespace ModuleSystem.ImportMap

open List (Forall₂)

variable {document : Json} {base u : Url} {m : ImportMap} {diagnostics : List Diagnostic}
  {specifier : String} {entry : String × Url} {mappings : Mappings}

/-- An entry of a map, among its imports or in a scope. -/
def HasEntry (m : ImportMap) (entry : String × Url) : Prop :=
  entry ∈ m.imports ∨ ∃ scope ∈ m.scopes, entry ∈ scope.mappings

/-- A URL occurs in the map of a document: as an address, as the root of a scope, or as what a
specifier of the document is resolved to whose written form is a key. -/
inductive Mentions (document : Json) (base : Url) (m : ImportMap) : Url → Prop
  | address {entry : String × Url} (held : m.HasEntry entry) : Mentions document base m entry.2
  | root {scope : Scope} (mem : scope ∈ m.scopes) : Mentions document base m scope.root
  | key {specifier : String} {address : Json} {u : Url} {entry : String × Url}
    (written : Writes document specifier address)
    (resolved : Specifier.resolve? specifier (some base) = .ok (some u))
    (held : m.HasEntry entry) (same : entry.1 = u.href) : Mentions document base m u

/-- A URL is read back from its written form, alone and against a base. -/
structure IsStable (base u : Url) : Prop where
  parse : Url.parse u.href = .ok u
  join : base.join u.href = .ok u

theorem IsStable.resolveAgainst (stable : IsStable base u) :
    Specifier.resolveAgainst u.href base = .ok u := by
  rw [Specifier.resolveAgainst, stable.join]
  rfl

/-- The written form of a URL is its own key. -/
theorem IsStable.normalizedKey (stable : IsStable base u) : normalizedKey base u.href = u.href := by
  rw [ImportMap.normalizedKey, Specifier.resolve?]
  split_ifs with scheme urlLike
  · rw [stable.parse]
    rfl
  · rw [stable.resolveAgainst]
    rfl
  · rfl

/-- The key of a specifier is its own key. -/
theorem normalizedKey_normalizedKey
    (stable : ∀ u, Specifier.resolve? specifier (some base) = .ok (some u) → IsStable base u) :
    normalizedKey base (normalizedKey base specifier) = normalizedKey base specifier := by
  cases resolved : Specifier.resolve? specifier (some base) with
  | error reason =>
    have same : normalizedKey base specifier = specifier := by rw [normalizedKey, resolved]
    rw [same, same]
  | ok u? =>
    cases u? with
    | none =>
      have same : normalizedKey base specifier = specifier := by rw [normalizedKey, resolved]
      rw [same, same]
    | some u =>
      have href : normalizedKey base specifier = u.href := by rw [normalizedKey, resolved]
      rw [href, (stable u resolved).normalizedKey]

/-- The entries of the map of a document come from entries of the document, and are all there. -/
theorem exists_writes (read : normalize document base = .ok (m, diagnostics))
    (held : m.HasEntry entry) :
    ∃ specifier address, Writes document specifier address ∧
      readEntry base specifier address = .ok entry := by
  have all := normalize_all (P := fun key u => ∃ specifier address,
    Writes document specifier address ∧ readEntry base specifier address = .ok (key, u)) read
    fun specifier address written _ _ usable => ⟨specifier, address, written, usable⟩
  rcases held with mem | ⟨scope, mem, mem'⟩
  · exact all.imports entry mem
  · exact all.scopes scope mem entry mem'

/-- An entry of the map of a document is read from its full written form. -/
theorem readEntry_href (read : normalize document base = .ok (m, diagnostics))
    (directories : m.All KeepsDirectory) (stable : ∀ u, Mentions document base m u → IsStable base u)
    (held : m.HasEntry entry) :
    readEntry base entry.1 (.string entry.2.href) = .ok entry := by
  obtain ⟨specifier, address, written, usable⟩ := exists_writes read held
  have key : entry.1 = normalizedKey base specifier := (readEntry_eq_ok_iff.mp usable).2.2.2
  have keysNe := (Made.normalized read).keys_ne
  have keeps : entry.1 ≠ "" ∧ KeepsDirectory entry.1 entry.2 := by
    rcases held with mem | ⟨scope, mem, mem'⟩
    · exact ⟨keysNe.imports entry mem, directories.imports entry mem⟩
    · exact ⟨keysNe.scopes scope mem entry mem', directories.scopes scope mem entry mem'⟩
  refine readEntry_eq_ok_iff.mpr
    ⟨keeps.1, ⟨_, rfl, (stable _ (.address held)).resolveAgainst⟩, keeps.2, ?_⟩
  rw [key]
  refine (normalizedKey_normalizedKey fun u resolved =>
    stable u (.key written resolved held ?_)).symm
  rw [key, normalizedKey, resolved]

/-- Mappings all of whose entries are read from their full written form are read from their absolute
document. -/
theorem readMappings_absolute (scope : Option String) (ordered : mappings.Ordered)
    (readable : ∀ entry ∈ mappings, readEntry base entry.1 (.string entry.2.href) = .ok entry) :
    ∃ entries, mappingsDocument none mappings = .object entries ∧
      readMappings base scope entries = (mappings, []) := by
  refine ⟨_, rfl, readMappings_ofList scope ordered ?_⟩
  rw [List.forall₂_map_left_iff, List.forall₂_same]
  exact readable

/-- The map of a document in which every directory is given a directory is read back from its
absolute document, and nothing is to be said of that document, if each URL that occurs in the map is
read back from its written form. -/
theorem normalize_toDocument_none (read : normalize document base = .ok (m, diagnostics))
    (directories : m.All KeepsDirectory)
    (stable : ∀ u, Mentions document base m u → IsStable base u) :
    normalize (m.toDocument none) base = .ok (m, []) := by
  have made : m.Made := .normalized read
  have readable {entry : String × Url} (held : m.HasEntry entry) :=
    readEntry_href read directories stable held
  obtain ⟨own, document, imports⟩ := readMappings_absolute none made.ordered.imports
    fun entry mem => readable (.inl mem)
  by_cases none : m.scopes = []
  · rw [toDocument_of_no_scopes none, document, normalize_imports, imports, ← none]
  · have scopes : (Table.ofList Table.byBytes (m.scopes.map fun s =>
        (s.root.href, mappingsDocument Option.none s.mappings))).foldl (addScope base) ([], []) =
          (m.scopes, []) := by
      refine foldl_addScope_ofList made.ordered.scopes ?_
      rw [List.forall₂_map_left_iff, List.forall₂_same]
      intro s mem
      obtain ⟨entries, document, read⟩ := readMappings_absolute (some s.root.href)
        (made.ordered.scopes.mappings mem) fun entry mem' => readable (.inr ⟨s, mem, mem'⟩)
      exact ⟨entries, document, (stable _ (.root mem)).resolveAgainst, read⟩
    rw [toDocument_sections none, document, normalize_sections, imports]
    exact congrArg (fun read => Except.ok (ImportMap.mk m.imports read.1, read.2)) scopes

theorem normalize_toDocument_none_mirror :
    normalize mirrorDocument (pathUrl "/") = .ok (ofDocument mirrorDocument, []) ∧
      (ofDocument mirrorDocument).All KeepsDirectory ∧
      (∀ u, Mentions mirrorDocument (pathUrl "/") (ofDocument mirrorDocument) u →
        IsStable (pathUrl "/") u) ∧
      normalize ((ofDocument mirrorDocument).toDocument none) (pathUrl "/") =
        .ok (ofDocument mirrorDocument, []) := by
  have read : normalize mirrorDocument (pathUrl "/") = .ok (ofDocument mirrorDocument, []) := rfl
  have imports : (ofDocument mirrorDocument).imports = [("x:/lib/", pathUrl "/mirror/")] := rfl
  have scopes : (ofDocument mirrorDocument).scopes =
      [⟨pathUrl "/app/", [("lib/", pathUrl "/own/")]⟩] := rfl
  have directories : (ofDocument mirrorDocument).All KeepsDirectory := by
    constructor
    · rw [imports]
      rintro entry (_ | ⟨_, ⟨⟩⟩)
      exact fun _ => rfl
    · rw [scopes]
      rintro scope (_ | ⟨_, ⟨⟩⟩) entry (_ | ⟨_, ⟨⟩⟩)
      exact fun _ => rfl
  have stable u (mentioned : Mentions mirrorDocument (pathUrl "/") (ofDocument mirrorDocument) u) :
      IsStable (pathUrl "/") u := by
    cases mentioned with
    | address held =>
      rcases held with mem | ⟨scope, mem, mem'⟩
      · rw [imports] at mem
        obtain rfl := List.mem_singleton.mp mem
        exact ⟨rfl, rfl⟩
      · rw [scopes] at mem
        obtain rfl := List.mem_singleton.mp mem
        obtain rfl := List.mem_singleton.mp mem'
        exact ⟨rfl, rfl⟩
    | root mem =>
      rw [scopes] at mem
      obtain rfl := List.mem_singleton.mp mem
      exact ⟨rfl, rfl⟩
    | key written resolved =>
      rcases written with ⟨given, mem⟩ | ⟨given, body, mem⟩
      · cases given
        obtain ⟨rfl, -⟩ := Prod.mk.inj (List.mem_singleton.mp mem)
        obtain rfl : pathUrl "/lib/" = u := Option.some.inj (Except.ok.inj resolved)
        exact ⟨rfl, rfl⟩
      · cases given
        cases List.mem_singleton.mp body
        obtain ⟨rfl, -⟩ := Prod.mk.inj (List.mem_singleton.mp mem)
        cases resolved
  exact ⟨read, directories, stable, normalize_toDocument_none read directories stable⟩

end ModuleSystem.ImportMap
