import Mathlib.Data.List.Perm.Basic
import ModuleSystem.Proofs.ImportMap.Composition

/-!
# Documents that are read back

An import map is written as a document by writing each of its URLs, and read from it by reading each
of them against the URL of the document. The order of the document differs from that of the map, and
is of no account: no two keys are written alike if each can be read back.

## Main definitions

* `ImportMap.ReadsBack` : an entry of a map is read back from its written form.

## Main results

* `ImportMap.Made.normalize_toDocument` : a map all of whose entries and scopes are read back is
  read back from its document.
-/

namespace ModuleSystem.ImportMap

open List (Forall₂)

variable {m : ImportMap} {place base address : Url} {key : String} {mappings ms : Mappings}
  {scope : Option String} {ss : List Scope}

/-- A URL is read back from its written form in a document at `place`. -/
def UrlReadsBack (place u : Url) : Prop :=
  Specifier.resolveAgainst (writtenUrl (some place) u) place = .ok u

/-- An entry is read back from its written form in a document at `place`. -/
structure ReadsBack (place : Url) (key : String) (address : Url) : Prop where
  same : normalizedKey place (writtenKey (some place) key) = key
  url : UrlReadsBack place address
  slash : Text.endsWithChar (writtenKey (some place) key) '/' → Text.endsWithChar address.href '/'

/-- An entry in its written form. -/
def written (place : Url) (e : String × Url) : String × Json :=
  (writtenKey (some place) e.1, .string (writtenUrl (some place) e.2))

theorem ReadsBack.readEntry_written {e : String × Url} (back : ReadsBack place e.1 e.2)
    (ne : e.1 ≠ "") : readEntry place (written place e).1 (written place e).2 = .ok e := by
  refine readEntry_eq_ok_iff.mpr ⟨fun empty => ?_, ⟨_, rfl, back.url⟩, back.slash, back.same.symm⟩
  -- the empty specifier would be its own key
  have same := back.same
  rw [show writtenKey (some place) e.1 = "" from empty] at same
  exact ne (same.symm.trans rfl)

/-! ### Mappings -/

/-- Entries of distinct keys that can be used are all read, and nothing is to be said of them. -/
theorem foldl_addEntry {entries : List (String × Json)} {read : List (String × Url)}
    (readable : Forall₂ (fun entry e => readEntry base entry.1 entry.2 = .ok e) entries read)
    (distinct : (read ++ ms).Pairwise fun e e' => e.1 ≠ e'.1) :
    entries.foldl (addEntry base scope) (ms, []) = (Mappings.overlay ms read, []) := by
  induction readable generalizing ms with
  | nil => rfl
  | @cons entry e entries read here _ ih =>
    obtain ⟨first, others⟩ := List.pairwise_cons.mp distinct
    have new : ms.get? e.1 = none := by
      have absent : Table.found? Prod.fst e.1 ms = none :=
        Table.found?_eq_none_iff.mpr fun e' mem => (first e' (List.mem_append_right _ mem)).symm
      rw [Mappings.get?_eq, absent]
      rfl
    have added : addEntry base scope (ms, []) entry = (ms.put e.1 e.2, []) := by
      simp [addEntry, here, new]
    rw [List.foldl_cons, added, ih]
    · rfl
    · have perm : (read ++ ms.put e.1 e.2).Perm (e :: (read ++ ms)) :=
        ((Table.merge_perm fun e' mem => first e' (List.mem_append_right _ mem)).append_left read).trans
          List.perm_middle
      exact perm.symm.pairwise distinct fun differ same => differ same.symm

/-- The key that an entry is read to depends on its specifier alone. -/
theorem key_eq_of_readEntry {entry : String × Json} {e : String × Url}
    (read : readEntry base entry.1 entry.2 = .ok e) : e.1 = normalizedKey base entry.1 :=
  (readEntry_eq_ok_iff.mp read).2.2.2

/-- Entries that are read one by one are read from an object of them, in whatever order it has
them. -/
theorem readMappings_ofList {entries : List (String × Json)} (scope : Option String)
    (ordered : mappings.Ordered)
    (readable : Forall₂ (fun entry e => readEntry base entry.1 entry.2 = .ok e) entries mappings) :
    readMappings base scope (Table.ofList Table.byBytes entries) = (mappings, []) := by
  have differ := ordered.distinct Specifier.keyBefore_linear
  have names : entries.Pairwise fun x y => x.1 ≠ y.1 := by
    have keys : entries.map (fun entry => normalizedKey base entry.1) = mappings.map Prod.fst := by
      rw [← List.forall₂_eq_eq_eq, List.forall₂_map_left_iff, List.forall₂_map_right_iff]
      exact readable.imp fun _ _ read => (key_eq_of_readEntry read).symm
    have distinct := List.pairwise_map.mp (keys ▸ List.pairwise_map.mpr differ)
    exact distinct.imp fun differ same => differ (congrArg (normalizedKey base) same)
  obtain ⟨read, readable, perm⟩ :=
    List.perm_comp_forall₂ (Table.ofList_perm Table.byBytes names) readable
  have distinct : read.Pairwise fun e e' => e.1 ≠ e'.1 := perm.symm.pairwise differ Ne.symm
  refine (foldl_addEntry readable (by simpa using distinct)).trans ?_
  have same : Mappings.overlay [] read = mappings :=
    Table.Sorted.eq_of_perm Specifier.keyBefore_linear (Mappings.Ordered.nil.overlay read) ordered
      ((Table.ofList_perm _ distinct).trans perm)
  rw [same]

/-- Mappings all of whose entries are read back are read back from their document. -/
theorem readMappings_mappingsDocument (scope : Option String) (ordered : mappings.Ordered)
    (back : ∀ e ∈ mappings, ReadsBack place e.1 e.2) (ne : ∀ e ∈ mappings, e.1 ≠ "") :
    ∃ entries, mappingsDocument (some place) mappings = .object entries ∧
      readMappings place scope entries = (mappings, []) := by
  have readable : Forall₂ (fun entry e => readEntry place entry.1 entry.2 = .ok e)
      (mappings.map (written place)) mappings := by
    rw [List.forall₂_map_left_iff, List.forall₂_same]
    exact fun e mem => (back e mem).readEntry_written (ne e mem)
  exact ⟨_, rfl, readMappings_ofList scope ordered readable⟩

/-! ### Scopes -/

/-- A scope is read back from a member of the scopes of a document. -/
def ReadsScope (place : Url) (member : String × Json) (s : Scope) : Prop :=
  ∃ entries, member.2 = .object entries ∧
    Specifier.resolveAgainst member.1 place = .ok s.root ∧
    readMappings place (some member.1) entries = (s.mappings, [])

theorem foldl_addScope {members : List (String × Json)} {read : List Scope}
    (readable : Forall₂ (ReadsScope place) members read) :
    members.foldl (addScope place) (ss, []) =
      (read.foldl (fun scopes scope => scope.putInto scopes) ss, []) := by
  induction readable generalizing ss with
  | nil => rfl
  | @cons member s members read here _ ih =>
    obtain ⟨root, body⟩ := member
    obtain ⟨entries, rfl, resolved, mappings⟩ := here
    have added : addScope place (ss, []) (root, .object entries) = (s.putInto ss, []) := by
      dsimp only at resolved mappings
      simp [addScope, resolved, mappings]
    rw [List.foldl_cons, added, ih, List.foldl_cons]

/-- Scopes that are read one by one are read from an object of them, in whatever order it has
them. -/
theorem foldl_addScope_ofList {members : List (String × Json)} {scopes : List Scope}
    (ordered : Scope.Ordered scopes) (readable : Forall₂ (ReadsScope base) members scopes) :
    (Table.ofList Table.byBytes members).foldl (addScope base) ([], []) = (scopes, []) := by
  have differ := ordered.sorted.distinct Specifier.keyBefore_linear
  have names : members.Pairwise fun x y => x.1 ≠ y.1 := by
    have roots : members.map (fun member => Specifier.resolveAgainst member.1 base) =
        scopes.map fun s => .ok s.root := by
      rw [← List.forall₂_eq_eq_eq, List.forall₂_map_left_iff, List.forall₂_map_right_iff]
      exact readable.imp fun _ _ ⟨_, _, resolved, _⟩ => resolved
    have apart : scopes.Pairwise fun s s' =>
        (Except.ok s.root : Except SpecifierError Url) ≠ .ok s'.root :=
      differ.imp fun differ same => differ (congrArg Url.href (Except.ok.inj same))
    have distinct := List.pairwise_map.mp (roots ▸ List.pairwise_map.mpr apart)
    exact distinct.imp fun differ same => differ (congrArg (Specifier.resolveAgainst · base) same)
  obtain ⟨read, readable, perm⟩ :=
    List.perm_comp_forall₂ (Table.ofList_perm Table.byBytes names) readable
  rw [foldl_addScope readable]
  have distinct : read.Pairwise fun s s' => s.root.href ≠ s'.root.href :=
    perm.symm.pairwise differ Ne.symm
  have added : (read.foldl (fun scopes scope => scope.putInto scopes) []).Perm (read ++ []) :=
    Table.foldl_merge_perm (by simpa using distinct)
  rw [List.append_nil] at added
  have same := Table.Sorted.eq_of_perm Specifier.keyBefore_linear
    (Scope.Ordered.nil.foldl_putInto fun s mem => ordered.mappings (perm.subset mem)).sorted
    ordered.sorted (added.trans perm)
  rw [same]

/-- A scope in its written form. -/
def writtenScope (place : Url) (s : Scope) : String × Json :=
  (writtenUrl (some place) s.root, mappingsDocument (some place) s.mappings)

/-- Scopes that are read back one by one are read back from their document. -/
theorem foldl_addScope_written {scopes : List Scope} (ordered : Scope.Ordered scopes)
    (roots : ∀ s ∈ scopes, UrlReadsBack place s.root)
    (back : ∀ s ∈ scopes, ∀ e ∈ s.mappings, ReadsBack place e.1 e.2)
    (ne : ∀ s ∈ scopes, ∀ e ∈ s.mappings, e.1 ≠ "") :
    (Table.ofList Table.byBytes (scopes.map (writtenScope place))).foldl (addScope place) ([], []) =
      (scopes, []) := by
  refine foldl_addScope_ofList ordered ?_
  rw [List.forall₂_map_left_iff, List.forall₂_same]
  intro s mem
  obtain ⟨entries, document, read⟩ :=
    readMappings_mappingsDocument _ (ordered.mappings mem) (back s mem) (ne s mem)
  exact ⟨entries, document, roots s mem, read⟩

/-! ### Maps -/

theorem toDocument_of_no_scopes {place : Option Url} (none : m.scopes = []) :
    m.toDocument place = .object [("imports", mappingsDocument place m.imports)] := by
  simp [toDocument, none, Json.ofMembers, Table.ofList, Table.put, Table.merge]

theorem toDocument_sections {place : Option Url} (some : m.scopes ≠ []) :
    m.toDocument place = .object [("imports", mappingsDocument place m.imports),
      ("scopes", .object (Table.ofList Table.byBytes (m.scopes.map fun s =>
        (writtenUrl place s.root, mappingsDocument place s.mappings))))] := by
  have order : ¬ "scopes" < "imports" := by decide
  simp [toDocument, some, Json.ofMembers, Table.ofList, Table.put, Table.merge, Table.byBytes, order]

theorem toDocument_of_scopes (some : m.scopes ≠ []) :
    m.toDocument (.some place) = .object [("imports", mappingsDocument (.some place) m.imports),
      ("scopes", .object (Table.ofList Table.byBytes (m.scopes.map (writtenScope place))))] :=
  toDocument_sections some

theorem normalize_imports (own : List (String × Json)) :
    normalize (.object [("imports", .object own)]) place =
      .ok (⟨(readMappings place none own).1, []⟩, (readMappings place none own).2) := by
  simp [normalize, sectionMembers, Table.get?, List.lookup_cons]

theorem normalize_sections (own bodies : List (String × Json)) :
    normalize (.object [("imports", .object own), ("scopes", .object bodies)]) place =
      .ok (⟨(readMappings place none own).1, (bodies.foldl (addScope place) ([], [])).1⟩,
        (readMappings place none own).2 ++ (bodies.foldl (addScope place) ([], [])).2) := by
  simp [normalize, sectionMembers, Table.get?, List.lookup_cons]

/-- A map whose entries and scopes are all read back is read back from its document, and nothing is
to be said of the document. -/
theorem Made.normalize_toDocument (made : m.Made) (entries : m.All (ReadsBack place))
    (roots : ∀ s ∈ m.scopes, UrlReadsBack place s.root) :
    normalize (m.toDocument (some place)) place = .ok (m, []) := by
  obtain ⟨own, document, read⟩ := readMappings_mappingsDocument none
    made.ordered.imports entries.imports made.keys_ne.imports
  have scopes := foldl_addScope_written made.ordered.scopes roots entries.scopes made.keys_ne.scopes
  by_cases none : m.scopes = []
  · rw [toDocument_of_no_scopes none, document, normalize_imports, read, ← none]
  · rw [toDocument_of_scopes none, document, normalize_sections, read, scopes]
    rfl

theorem Made.normalize_toDocument_layered :
    layered.Made ∧ layered.All (ReadsBack (pathUrl "/app/main")) ∧
      (∀ s ∈ layered.scopes, UrlReadsBack (pathUrl "/app/main") s.root) ∧
      normalize (layered.toDocument (some (pathUrl "/app/main"))) (pathUrl "/app/main") =
        .ok (layered, []) := by
  have made : layered.Made := .composed (made_ofDocument _) (made_ofDocument _)
  have imports : layered.imports = [("lib/b", pathUrl "/b"), ("lib/", pathUrl "/lib/")] := rfl
  have scopes : layered.scopes = [⟨pathUrl "/app/", [("lib/", pathUrl "/own/")]⟩] := rfl
  have entries : layered.All (ReadsBack (pathUrl "/app/main")) := by
    constructor
    · rw [imports]
      rintro e (_ | ⟨_, _ | ⟨_, ⟨⟩⟩⟩)
      · exact ⟨rfl, rfl, by decide⟩
      · exact ⟨rfl, rfl, by decide⟩
    · rw [scopes]
      rintro s (_ | ⟨_, ⟨⟩⟩) e (_ | ⟨_, ⟨⟩⟩)
      exact ⟨rfl, rfl, by decide⟩
  have roots : ∀ s ∈ layered.scopes, UrlReadsBack (pathUrl "/app/main") s.root := by
    rw [scopes]
    rintro s (_ | ⟨_, ⟨⟩⟩)
    rfl
  exact ⟨made, entries, roots, made.normalize_toDocument entries roots⟩

end ModuleSystem.ImportMap
