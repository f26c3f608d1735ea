import ModuleSystem.Proofs.ImportMap.Order

/-!
# Where entries come from

Every entry of an import map has been read from an entry of a document. What holds of all entries
that can be read from some documents so holds of all entries of the maps that are made from them.

## Main definitions

* `ImportMap.Writes` : a document has an entry, among its imports or in a scope.
* `ImportMap.MadeFrom` : the maps that some documents and their compositions give.
* `ImportMap.All` : something holds of all entries of a map.

## Main results

* `ImportMap.readEntry_eq_ok_iff` : when an entry of a document can be used, and what it becomes.
* `ImportMap.MadeFrom.all` : what holds of all entries that are read holds of all entries of a map.
-/

namespace ModuleSystem.ImportMap

variable {document : Json} {base u : Url} {specifier key : String} {address : Json}
  {m lower upper : ImportMap} {mappings : Mappings} {P : String → Url → Prop}

/-- An entry of a document can be used if its specifier is not empty, its address has a URL, and
the URL ends with a slash where the specifier does. -/
theorem readEntry_eq_ok_iff : readEntry base specifier address = .ok (key, u) ↔
    specifier ≠ "" ∧ (∃ text, address = .string text ∧ Specifier.resolveAgainst text base = .ok u) ∧
      (Text.endsWithChar specifier '/' → Text.endsWithChar u.href '/') ∧
      key = normalizedKey base specifier := by
  by_cases empty : specifier = ""
  · simp [readEntry, empty]
  have proper : (specifier == "") = false := by simpa using empty
  cases address with
  | string text =>
    cases resolved : Specifier.resolveAgainst text base with
    | error reason => simp [readEntry, proper, resolved]
    | ok v =>
      have read : readEntry base specifier (.string text) =
          if Text.endsWithChar specifier '/' && !Text.endsWithChar v.href '/' then
            .error (.slashMismatch specifier text)
          else .ok (normalizedKey base specifier, v) := by
        simp only [readEntry, proper, resolved]
        rfl
      rw [read]
      split_ifs with slash
      · obtain ⟨ends, lacks⟩ := Bool.and_eq_true_iff.mp slash
        refine iff_of_false nofun fun ⟨_, ⟨_, written, found⟩, keeps, _⟩ => ?_
        cases written
        cases resolved.symm.trans found
        simp [keeps ends] at lacks
      · constructor
        · rintro ⟨⟩
          exact ⟨empty, ⟨text, rfl, resolved⟩, by simpa using slash, rfl⟩
        · rintro ⟨-, ⟨_, written, found⟩, -, rfl⟩
          cases written
          cases resolved.symm.trans found
          rfl
  | null | bool | int | number | array | object => simp [readEntry, proper]

/-- A document has an entry, among its imports or in a scope. -/
inductive Writes : Json → String → Json → Prop
  | imports {members entries specifier address}
    (imports : Table.get? "imports" members = some (.object entries))
    (mem : (specifier, address) ∈ entries) : Writes (.object members) specifier address
  | scope {members bodies root entries specifier address}
    (scopes : Table.get? "scopes" members = some (.object bodies))
    (body : (root, .object entries) ∈ bodies) (mem : (specifier, address) ∈ entries) :
    Writes (.object members) specifier address

/-- The maps that are made from some documents, each at its URL, and from such maps. -/
inductive MadeFrom (Given : Json → Url → Prop) : ImportMap → Prop
  | normalized {document : Json} {base : Url} {m : ImportMap} {diagnostics : List Diagnostic}
    (given : Given document base)
    (read : normalize document base = .ok (m, diagnostics)) : MadeFrom Given m
  | composed {lower upper : ImportMap} (made : MadeFrom Given lower) (made' : MadeFrom Given upper) :
    MadeFrom Given (lower.compose upper)

theorem MadeFrom.made {Given : Json → Url → Prop} (made : MadeFrom Given m) : m.Made := by
  induction made with
  | normalized _ read => exact .normalized read
  | composed _ _ lower upper => exact .composed lower upper

theorem Made.madeFrom (made : m.Made) : MadeFrom (fun _ _ => True) m := by
  induction made with
  | normalized read => exact .normalized trivial read
  | composed _ _ lower upper => exact .composed lower upper

/-- Something holds of all entries of a map, among its imports and in its scopes. -/
structure All (P : String → Url → Prop) (m : ImportMap) : Prop where
  imports : ∀ entry ∈ m.imports, P entry.1 entry.2
  scopes : ∀ scope ∈ m.scopes, ∀ entry ∈ scope.mappings, P entry.1 entry.2

/-! ### Tables -/

theorem put_all {address : Url} (h : ∀ entry ∈ mappings, P entry.1 entry.2) (new : P key address) :
    ∀ entry ∈ mappings.put key address, P entry.1 entry.2 := by
  intro entry mem
  rcases Table.mem_merge mem with rfl | mem | ⟨_, -, -, rfl⟩
  · exact new
  · exact h entry mem
  · exact new

theorem overlay_all {upper : Mappings} (h : ∀ entry ∈ mappings, P entry.1 entry.2)
    (hu : ∀ entry ∈ upper, P entry.1 entry.2) :
    ∀ entry ∈ mappings.overlay upper, P entry.1 entry.2 :=
  List.foldlRecOn (motive := fun mappings : Mappings => ∀ entry ∈ mappings, P entry.1 entry.2)
    upper _ h fun _ h entry mem => put_all h (hu entry mem)

theorem putInto_all {scopes : List Scope} {scope : Scope}
    (h : ∀ scope ∈ scopes, ∀ entry ∈ scope.mappings, P entry.1 entry.2)
    (new : ∀ entry ∈ scope.mappings, P entry.1 entry.2) :
    ∀ other ∈ scope.putInto scopes, ∀ entry ∈ other.mappings, P entry.1 entry.2 := by
  intro other mem
  rcases Table.mem_merge mem with rfl | mem | ⟨old, known, -, rfl⟩
  · exact new
  · exact h other mem
  · exact overlay_all (h old known) new

theorem All.compose (hl : lower.All P) (hu : upper.All P) : (lower.compose upper).All P where
  imports := overlay_all hl.imports hu.imports
  scopes := List.foldlRecOn (motive := fun scopes : List Scope =>
    ∀ scope ∈ scopes, ∀ entry ∈ scope.mappings, P entry.1 entry.2) _ _ hl.scopes
    fun _ h scope mem => putInto_all h (hu.scopes scope mem)

/-! ### Documents -/

theorem readMappings_all {scope : Option String} {entries : List (String × Json)}
    (h : ∀ entry ∈ entries, ∀ key u, readEntry base entry.1 entry.2 = .ok (key, u) → P key u) :
    ∀ entry ∈ (readMappings base scope entries).1, P entry.1 entry.2 := by
  refine List.foldlRecOn
    (motive := fun read : Mappings × List Diagnostic => ∀ entry ∈ read.1, P entry.1 entry.2)
    entries _ (by simp) fun read all entry mem => ?_
  rw [addEntry]
  cases readable : readEntry base entry.1 entry.2 with
  | error problem => exact all
  | ok added => exact put_all all (h entry mem added.1 added.2 readable)

theorem addScope_all {read : List Scope × List Diagnostic} {member : String × Json}
    (all : ∀ scope ∈ read.1, ∀ entry ∈ scope.mappings, P entry.1 entry.2)
    (h : ∀ entries, member.2 = .object entries → ∀ entry ∈ entries, ∀ key u,
      readEntry base entry.1 entry.2 = .ok (key, u) → P key u) :
    ∀ scope ∈ (addScope base read member).1, ∀ entry ∈ scope.mappings, P entry.1 entry.2 := by
  obtain ⟨root, body⟩ := member
  cases body with
  | object entries =>
    rw [addScope]
    cases Specifier.resolveAgainst root base with
    | error reason => exact all
    | ok url => exact putInto_all all (readMappings_all (h entries rfl))
  | null | bool | int | number | string | array => exact all

/-- The members of a section of a document are those that it has under the name. -/
theorem sectionMembers_eq (name : String) (members : List (String × Json)) :
    (sectionMembers name members).1 = [] ∨
      Table.get? name members = some (.object (sectionMembers name members).1) := by
  rw [sectionMembers]
  cases Table.get? name members with
  | none => exact .inl rfl
  | some value =>
    cases value with
    | object entries => exact .inr rfl
    | null | bool | int | number | string | array => exact .inl rfl

theorem normalize_all {diagnostics : List Diagnostic}
    (read : normalize document base = .ok (m, diagnostics))
    (h : ∀ specifier address, Writes document specifier address →
      ∀ key u, readEntry base specifier address = .ok (key, u) → P key u) : m.All P := by
  cases document with
  | object members =>
    cases read
    constructor
    · refine readMappings_all fun entry mem => ?_
      rcases sectionMembers_eq "imports" members with empty | imports
      · exact absurd (empty ▸ mem) List.not_mem_nil
      · exact h entry.1 entry.2 (.imports imports mem)
    · refine List.foldlRecOn (motive := fun read : List Scope × List Diagnostic =>
        ∀ scope ∈ read.1, ∀ entry ∈ scope.mappings, P entry.1 entry.2) _ _ (by simp)
        fun read all member mem => addScope_all all fun entries body entry written => ?_
      obtain ⟨root, _⟩ := member
      cases body
      rcases sectionMembers_eq "scopes" members with empty | scopes
      · exact absurd (empty ▸ mem) List.not_mem_nil
      · exact h entry.1 entry.2 (.scope scopes mem written)
  | null | bool | int | number | string | array => cases read

/-- What holds of all entries that are read from some documents holds of all entries of the maps
that are made from them. -/
theorem MadeFrom.all {Given : Json → Url → Prop} (made : MadeFrom Given m)
    (h : ∀ document base, Given document base → ∀ specifier address,
      Writes document specifier address →
      ∀ key u, readEntry base specifier address = .ok (key, u) → P key u) : m.All P := by
  induction made with
  | normalized given read => exact normalize_all read (h _ _ given)
  | composed _ _ lower upper => exact lower.compose upper

end ModuleSystem.ImportMap
