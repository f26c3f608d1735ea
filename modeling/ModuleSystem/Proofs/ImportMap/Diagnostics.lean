import ModuleSystem.Proofs.ImportMap.Composition

/-!
# Nothing is lost without a diagnostic

Of the entries of a document some are of no use, and some are replaced by later ones. Each of these
is reported where it happens: what is of no use under its own place, and what is replaced under the
place of the entry that replaces it. Only one loss is not seen: when two scopes turn out to have the
same root, the entries of the later one win over those of the earlier one.

## Main definitions

* `ImportMap.WritesAt` : a document has an entry among its imports or in one of its scopes, and
  further scopes after that.
* `ImportMap.Overridden` : a later scope of the same root has an entry of the same key with
  another address.
* `ImportMap.Keeps`, `ImportMap.Explains` : an entry is found in a map, or some diagnostics say why
  it is not.

## Main results

* `ImportMap.kept_or_explained` : every entry that no later scope overrides is kept or explained.
-/

namespace ModuleSystem.ImportMap

variable {document address : Json} {base u : Url} {m : ImportMap} {diagnostics : List Diagnostic}
  {scope : Option String} {root key specifier : String} {ms : Mappings} {ss : List Scope}
  {ds : List Diagnostic} {entries bodies later : List (String × Json)}

/-- A document has an entry, among its imports or in a scope that others come after. -/
inductive WritesAt :
    Json → Option String → List (String × Json) → String → Json → Prop
  | imports {members entries specifier address}
    (imports : Table.get? "imports" members = some (.object entries))
    (mem : (specifier, address) ∈ entries) : WritesAt (.object members) none [] specifier address
  | scope {members before root entries later specifier address}
    (scopes : Table.get? "scopes" members =
      some (.object (before ++ (root, .object entries) :: later)))
    (mem : (specifier, address) ∈ entries) :
    WritesAt (.object members) (some root) later specifier address

/-- Among some scopes is one that has the root of the scope of an entry, and has an entry with the
same key and another address. -/
inductive Overridden (base : Url) (later : List (String × Json)) :
    Option String → String → Json → Prop
  | intro {root other r r' entries specifier address specifier' address' u}
    (mem : (other, .object entries) ∈ later)
    (resolved : Specifier.resolveAgainst root base = .ok r)
    (resolved' : Specifier.resolveAgainst other base = .ok r') (same : r'.href = r.href)
    (written : (specifier', address') ∈ entries)
    (read : readEntry base specifier' address' = .ok (normalizedKey base specifier, u))
    (differs : readEntry base specifier address ≠ .ok (normalizedKey base specifier, u)) :
    Overridden base later (some root) specifier address

/-- The root of a scope in its written form; the imports have none. -/
def rootOf (base : Url) : Option String → Except SpecifierError (Option String)
  | none => .ok none
  | some key => (Specifier.resolveAgainst key base).map fun r => some r.href

/-- An entry is found in a map: under its key its address, both resolved, in the scope of its root
or among the imports. -/
def Keeps (m : ImportMap) (base : Url) (scope : Option String) (specifier : String)
    (address : Json) : Prop :=
  ∃ text u root, address = .string text ∧ Specifier.resolveAgainst text base = .ok u ∧
    rootOf base scope = .ok root ∧ m.address? root (normalizedKey base specifier) = some u

/-- Diagnostics say why an entry of a document is not found in its map. -/
inductive Explains (diagnostics : List Diagnostic) (document : Json) (base : Url)
    (scope : Option String) (specifier : String) (address : Json) : Prop
  /-- The entry is of no use, and its place is named. -/
  | unusable {problem} (reason : readEntry base specifier address = .error problem)
    (told : { problem, place := .entry scope specifier } ∈ diagnostics)
  /-- The scope of the entry has no URL, and is named. -/
  | rootless {key reason} (inside : scope = some key)
    (unresolved : Specifier.resolveAgainst key base = .error reason)
    (told : { problem := .scopeNotUrl key reason, place := .scope key } ∈ diagnostics)
  /-- Another entry of the imports or of the scope has taken the key, and its place is named. -/
  | replaced {later other address' key u u'} (read : readEntry base specifier address = .ok (key, u))
    (written : WritesAt document scope later other address')
    (read' : readEntry base other address' = .ok (key, u'))
    (told : { problem := .duplicateKey other key u, place := .entry scope other } ∈ diagnostics)

/-! ### Entries -/

theorem addEntry_of_error {problem : ImportMapProblem} {entry : String × Json}
    (unusable : readEntry base entry.1 entry.2 = .error problem) :
    addEntry base scope (ms, ds) entry =
      (ms, ds ++ [{ problem, place := .entry scope entry.1 }]) := by
  simp only [addEntry, unusable]

theorem addEntry_of_ok {entry : String × Json}
    (read : readEntry base entry.1 entry.2 = .ok (key, u)) :
    addEntry base scope (ms, ds) entry = (ms.put key u, ds ++ ((ms.get? key).map fun old =>
      { problem := .duplicateKey entry.1 key old, place := .entry scope entry.1 }).toList) := by
  simp only [addEntry, read]

/-- What has been said is not taken back. -/
theorem subset_foldl_addEntry (entries : List (String × Json)) :
    ds ⊆ (entries.foldl (addEntry base scope) (ms, ds)).2 := by
  induction entries generalizing ms ds with
  | nil => exact List.Subset.refl _
  | cons entry rest ih =>
    rw [List.foldl_cons]
    cases read : readEntry base entry.1 entry.2 with
    | error problem =>
      rw [addEntry_of_error read]
      exact List.Subset.trans (List.subset_append_left _ _) ih
    | ok added =>
      rw [addEntry_of_ok read]
      exact List.Subset.trans (List.subset_append_left _ _) ih

/-- An address that has been found stays, or a later entry is reported to have replaced it. -/
theorem foldl_addEntry_found (ordered : ms.Ordered) (found : ms.get? key = some u) :
    (entries.foldl (addEntry base scope) (ms, ds)).1.get? key = some u ∨
      ∃ entry ∈ entries, (∃ u', readEntry base entry.1 entry.2 = .ok (key, u')) ∧
        { problem := .duplicateKey entry.1 key u, place := .entry scope entry.1 } ∈
          (entries.foldl (addEntry base scope) (ms, ds)).2 := by
  induction entries generalizing ms ds with
  | nil => exact .inl found
  | cons entry rest ih =>
    rw [List.foldl_cons]
    cases read : readEntry base entry.1 entry.2 with
    | error problem =>
      rw [addEntry_of_error read]
      refine (ih ordered found).imp_right fun ⟨other, mem, others⟩ => ?_
      exact ⟨other, List.mem_cons_of_mem _ mem, others⟩
    | ok added =>
      obtain ⟨key', u'⟩ := added
      rw [addEntry_of_ok read]
      by_cases same : key' = key
      · subst same
        refine .inr ⟨entry, List.mem_cons_self, ⟨u', read⟩, subset_foldl_addEntry rest ?_⟩
        simp [found]
      · have kept : (ms.put key' u').get? key = some u := by
          rw [ordered.get?_put, if_neg same, found]
        refine (ih (ordered.put key' u') kept).imp_right fun ⟨other, mem, others⟩ => ?_
        exact ⟨other, List.mem_cons_of_mem _ mem, others⟩

/-- Each entry of an object is reported to be of no use, or found in the mappings, or another one is
reported to have replaced it. -/
theorem readMappings_accounts (base : Url) (scope : Option String) {entry : String × Json}
    (mem : entry ∈ entries) :
    (∃ problem, readEntry base entry.1 entry.2 = .error problem ∧
      { problem, place := .entry scope entry.1 } ∈ (readMappings base scope entries).2) ∨
    ∃ key u, readEntry base entry.1 entry.2 = .ok (key, u) ∧
      ((readMappings base scope entries).1.get? key = some u ∨
        ∃ other ∈ entries, (∃ u', readEntry base other.1 other.2 = .ok (key, u')) ∧
          { problem := .duplicateKey other.1 key u, place := .entry scope other.1 } ∈
            (readMappings base scope entries).2) := by
  obtain ⟨before, rest, rfl⟩ := List.append_of_mem mem
  have ordered : (readMappings base scope before).1.Ordered :=
    readMappings_ordered base scope before
  have parts : readMappings base scope (before ++ entry :: rest) =
      rest.foldl (addEntry base scope) (addEntry base scope (readMappings base scope before) entry) := by
    rw [readMappings, List.foldl_append]
    rfl
  rw [parts]
  cases read : readEntry base entry.1 entry.2 with
  | error problem =>
    refine .inl ⟨problem, rfl, ?_⟩
    rw [addEntry_of_error read]
    exact subset_foldl_addEntry rest (List.mem_append_right _ List.mem_cons_self)
  | ok added =>
    obtain ⟨key, u⟩ := added
    refine .inr ⟨key, u, rfl, ?_⟩
    rw [addEntry_of_ok read]
    have found : ((readMappings base scope before).1.put key u).get? key = some u := by
      rw [ordered.get?_put, if_pos rfl]
    refine (foldl_addEntry_found (ordered.put key u) found).imp_right fun ⟨other, mem, others⟩ => ?_
    exact ⟨other, List.mem_append_right _ (List.mem_cons_of_mem _ mem), others⟩

/-! ### Scopes -/

/-- What is found in scopes after one more has been put into them: first what it has itself. -/
theorem address?_putInto {own : Scope} (ordered : Scope.Ordered ss)
    (sorted : own.mappings.Ordered) :
    address? { scopes := own.putInto ss } (some root) key =
      (if own.root.href = root then own.mappings.get? key else none).or
        (address? { scopes := ss } (some root) key) := by
  have lower : Ordered { scopes := ss } := ⟨Mappings.Ordered.nil, ordered⟩
  have upper : Ordered { scopes := [own] } :=
    ⟨Mappings.Ordered.nil, List.pairwise_singleton _ _, fun mem => by
      rw [List.mem_singleton.mp mem]
      exact sorted⟩
  have composed := lower.address?_compose upper (some root) key
  rw [show address? { scopes := own.putInto ss } (some root) key =
    (compose { scopes := ss } { scopes := [own] }).address? (some root) key from rfl, composed]
  congr 1
  rw [address?, scope?, Table.found?_cons]
  split_ifs <;> rfl

theorem addScope_of_error {reason : SpecifierError}
    (unresolved : Specifier.resolveAgainst key base = .error reason) :
    addScope base (ss, ds) (key, .object entries) =
      (ss, ds ++ [{ problem := .scopeNotUrl key reason, place := .scope key }]) := by
  simp only [addScope, unresolved]

theorem addScope_of_ok (resolved : Specifier.resolveAgainst key base = .ok u) :
    addScope base (ss, ds) (key, .object entries) =
      (Scope.putInto { root := u, mappings := (readMappings base (some key) entries).1 } ss,
        ds ++ (readMappings base (some key) entries).2) := by
  simp only [addScope, resolved]

theorem subset_addScope (member : String × Json) : ds ⊆ (addScope base (ss, ds) member).2 := by
  obtain ⟨key, body⟩ := member
  cases body with
  | object entries =>
    cases resolved : Specifier.resolveAgainst key base with
    | error reason =>
      rw [addScope_of_error resolved]
      exact List.subset_append_left _ _
    | ok u =>
      rw [addScope_of_ok resolved]
      exact List.subset_append_left _ _
  | null | bool | int | number | string | array => exact List.subset_append_left _ _

theorem subset_foldl_addScope (bodies : List (String × Json)) :
    ds ⊆ (bodies.foldl (addScope base) (ss, ds)).2 := by
  induction bodies generalizing ss ds with
  | nil => exact List.Subset.refl _
  | cons member rest ih => exact List.Subset.trans (subset_addScope member) ih

/-- The mappings of an object have a key only if one of its entries does. -/
theorem exists_of_get?_readMappings
    (found : (readMappings base scope entries).1.get? key = some u) :
    ∃ entry ∈ entries, readEntry base entry.1 entry.2 = .ok (key, u) := by
  have all : ∀ e ∈ (readMappings base scope entries).1, ∃ entry ∈ entries,
      readEntry base entry.1 entry.2 = .ok (e.1, e.2) :=
    readMappings_all (P := fun key u => ∃ entry ∈ entries,
      readEntry base entry.1 entry.2 = .ok (key, u)) fun entry mem _ _ read => ⟨entry, mem, read⟩
  have mem : (key, u) ∈ (readMappings base scope entries).1 := by
    refine List.mem_of_find?_eq_some (p := fun entry => entry.1 = key) ?_
    have entry := Mappings.found?_eq (readMappings base scope entries).1 key
    rw [found] at entry
    exact entry
  exact all (key, u) mem

/-- What overrides an entry does so among further scopes. -/
theorem Overridden.mono {others : List (String × Json)}
    (h : Overridden base later scope specifier address) (sub : later ⊆ others) :
    Overridden base others scope specifier address := by
  obtain ⟨mem, resolved, resolved', same, written, read, differs⟩ := h
  exact ⟨sub mem, resolved, resolved', same, written, read, differs⟩

/-- What is found in a scope stays, unless a later scope overrides it. -/
theorem addScope_found {read : List Scope × List Diagnostic} {member : String × Json} {r : Url}
    (ordered : Scope.Ordered read.1) (resolved : Specifier.resolveAgainst root base = .ok r)
    (found : address? { scopes := read.1 } (some r.href) (normalizedKey base specifier) = some u)
    (usable : readEntry base specifier address = .ok (normalizedKey base specifier, u))
    (alone : ¬ Overridden base [member] (some root) specifier address) :
    address? { scopes := (addScope base read member).1 } (some r.href)
      (normalizedKey base specifier) = some u := by
  obtain ⟨ss, ds⟩ := read
  obtain ⟨other, body⟩ := member
  cases body with
  | object entries =>
    cases resolved' : Specifier.resolveAgainst other base with
    | error reason =>
      rw [addScope_of_error resolved']
      exact found
    | ok r' =>
      rw [addScope_of_ok resolved', address?_putInto ordered (readMappings_ordered _ _ _), found]
      split_ifs with same
      · cases own : (readMappings base (some other) entries).1.get? (normalizedKey base specifier) with
        | none => rfl
        | some u' =>
          obtain ⟨entry, mem, read⟩ := exists_of_get?_readMappings own
          by_cases equal : u' = u
          · rw [equal]
            rfl
          · have differs :
                readEntry base specifier address ≠ .ok (normalizedKey base specifier, u') :=
              fun read' => by
                cases usable.symm.trans read'
                exact equal rfl
            exact absurd
              ⟨List.mem_singleton_self _, resolved, resolved', same, mem, read, differs⟩ alone
      · rfl
  | null | bool | int | number | string | array => exact found

theorem foldl_addScope_found {read : List Scope × List Diagnostic} {r : Url}
    (ordered : Scope.Ordered read.1) (resolved : Specifier.resolveAgainst root base = .ok r)
    (found : address? { scopes := read.1 } (some r.href) (normalizedKey base specifier) = some u)
    (usable : readEntry base specifier address = .ok (normalizedKey base specifier, u))
    (alone : ¬ Overridden base later (some root) specifier address) :
    address? { scopes := (later.foldl (addScope base) read).1 } (some r.href)
      (normalizedKey base specifier) = some u := by
  induction later generalizing read with
  | nil => exact found
  | cons member rest ih =>
    have first : ¬ Overridden base [member] (some root) specifier address := fun h =>
      alone (h.mono (List.cons_subset_cons member (List.nil_subset rest)))
    have others : ¬ Overridden base rest (some root) specifier address := fun h =>
      alone (h.mono (List.subset_cons_self member rest))
    exact ih (addScope_ordered ordered member) (addScope_found ordered resolved found usable first)
      others

/-- Each entry of a scope that no later scope overrides is found there, or what is said of the scopes
tells why it is not. -/
theorem foldl_addScope_accounts {before : List (String × Json)} {entry : String × Json}
    (mem : entry ∈ entries) (alone : ¬ Overridden base later (some root) entry.1 entry.2) :
    let read := (before ++ (root, .object entries) :: later).foldl (addScope base) ([], [])
    (∃ reason, Specifier.resolveAgainst root base = .error reason ∧
      { problem := .scopeNotUrl root reason, place := .scope root } ∈ read.2) ∨
    (∃ problem, readEntry base entry.1 entry.2 = .error problem ∧
      { problem, place := .entry (some root) entry.1 } ∈ read.2) ∨
    ∃ r u, Specifier.resolveAgainst root base = .ok r ∧
      readEntry base entry.1 entry.2 = .ok (normalizedKey base entry.1, u) ∧
      (address? { scopes := read.1 } (some r.href) (normalizedKey base entry.1) = some u ∨
        ∃ other ∈ entries,
          (∃ u', readEntry base other.1 other.2 = .ok (normalizedKey base entry.1, u')) ∧
          { problem := .duplicateKey other.1 (normalizedKey base entry.1) u
            place := .entry (some root) other.1 } ∈ read.2) := by
  intro read
  have ordered : Scope.Ordered (before.foldl (addScope base) ([], [])).1 :=
    List.foldlRecOn (motive := fun read : List Scope × List Diagnostic => Scope.Ordered read.1)
      _ _ Scope.Ordered.nil fun _ ordered member _ => addScope_ordered ordered member
  obtain ⟨⟨ss, ds⟩, first⟩ : ∃ first, before.foldl (addScope base) ([], []) = first := ⟨_, rfl⟩
  have parts :
      read = later.foldl (addScope base) (addScope base (ss, ds) (root, .object entries)) := by
    rw [← first, ← List.foldl_cons, ← List.foldl_append]
  rw [first] at ordered
  rw [parts]
  cases resolved : Specifier.resolveAgainst root base with
  | error reason =>
    rw [addScope_of_error resolved]
    refine .inl ⟨reason, rfl, subset_foldl_addScope later ?_⟩
    exact List.mem_append_right _ List.mem_cons_self
  | ok r =>
    rw [addScope_of_ok resolved]
    have told {ss : List Scope} {d : Diagnostic}
        (h : d ∈ (readMappings base (some root) entries).2) :
        d ∈ (later.foldl (addScope base) (ss, ds ++ (readMappings base (some root) entries).2)).2 :=
      subset_foldl_addScope later (List.mem_append_right _ h)
    have sorted := readMappings_ordered base (some root) entries
    rcases readMappings_accounts base (some root) mem with
      ⟨problem, reason, noted⟩ | ⟨key, u, usable, found⟩
    · exact .inr (.inl ⟨problem, reason, told noted⟩)
    · obtain ⟨-, -, -, rfl⟩ := readEntry_eq_ok_iff.mp usable
      refine .inr (.inr ⟨r, u, rfl, usable, ?_⟩)
      rcases found with found | ⟨other, mem', usable', noted⟩
      · refine .inl (foldl_addScope_found (ordered.putInto sorted) resolved ?_ usable alone)
        rw [address?_putInto ordered sorted, if_pos rfl, found]
        rfl
      · exact .inr ⟨other, mem', usable', told noted⟩

/-! ### Documents -/

theorem sectionMembers_of_object {name : String} {members : List (String × Json)}
    (h : Table.get? name members = some (.object entries)) :
    sectionMembers name members = (entries, []) := by
  simp only [sectionMembers, h]

/-- Of a document that is read, every entry that no later scope overrides is found in the map, under
its key and in the scope of its root, or the diagnostics say why it is not. -/
theorem kept_or_explained (read : normalize document base = .ok (m, diagnostics))
    (written : WritesAt document scope later specifier address)
    (alone : ¬ Overridden base later scope specifier address) :
    m.Keeps base scope specifier address ∨
      Explains diagnostics document base scope specifier address := by
  cases written with
  | @imports members entries _ _ imports mem =>
    simp only [normalize, sectionMembers_of_object imports] at read
    cases read
    rcases readMappings_accounts base none mem with
      ⟨problem, reason, told⟩ | ⟨key, u, usable, found | ⟨other, mem', ⟨u', usable'⟩, told⟩⟩
    · exact .inr (.unusable reason (by simp [told]))
    · obtain ⟨-, ⟨text, rfl, resolved⟩, -, rfl⟩ := readEntry_eq_ok_iff.mp usable
      exact .inl ⟨text, u, none, rfl, resolved, rfl, found⟩
    · exact .inr (.replaced usable (.imports imports mem') usable' (by simp [told]))
  | @scope members before root entries _ _ _ scopes mem =>
    simp only [normalize, sectionMembers_of_object scopes] at read
    cases read
    rcases foldl_addScope_accounts mem alone with ⟨reason, unresolved, told⟩ |
      ⟨problem, reason, told⟩ | ⟨r, u, resolved, usable, found⟩
    · exact .inr (.rootless rfl unresolved (List.mem_append_right _ told))
    · exact .inr (.unusable reason (List.mem_append_right _ told))
    · rcases found with found | ⟨other, mem', ⟨u', usable'⟩, told⟩
      · obtain ⟨-, ⟨text, rfl, resolved'⟩, -, -⟩ := readEntry_eq_ok_iff.mp usable
        refine .inl ⟨text, u, some r.href, rfl, resolved', ?_, found⟩
        rw [rootOf, resolved]
        rfl
      · exact .inr (.replaced usable (.scope scopes mem') usable' (List.mem_append_right _ told))

/-- A later scope of the same root overrides an entry without a word. -/
example : normalize (.object [("scopes", .object [("./app/", .object [("b", .string "x:/one")]),
    ("/app/", .object [("b", .string "x:/two")])])]) (pathUrl "/") =
      .ok ({ scopes := [⟨pathUrl "/app/", [("b", pathUrl "/two")]⟩] }, []) := rfl

/-- The last scope of `collidingDocument`. -/
def laterScopes : List (String × Json) :=
  [("/app/", .object [("b", .string "x:/three")])]

/-- A document in which two entries of a scope have the same key, and two scopes the same root. -/
def collidingDocument : Json :=
  .object [("scopes", .object (("./app/", .object [("./a", .string "x:/one"),
    ("/a", .string "x:/two")]) :: laterScopes))]

theorem kept_or_explained_colliding :
    ∃ diagnostics, normalize collidingDocument (pathUrl "/") =
        .ok (ofDocument collidingDocument, diagnostics) ∧
      WritesAt collidingDocument (some "./app/") laterScopes "./a" (.string "x:/one") ∧
      ¬ Overridden (pathUrl "/") laterScopes (some "./app/") "./a" (.string "x:/one") ∧
      ¬ (ofDocument collidingDocument).Keeps (pathUrl "/") (some "./app/") "./a"
        (.string "x:/one") ∧
      Explains diagnostics collidingDocument (pathUrl "/") (some "./app/") "./a"
        (.string "x:/one") := by
  have read : ∃ diagnostics, normalize collidingDocument (pathUrl "/") =
      .ok (ofDocument collidingDocument, diagnostics) := ⟨_, rfl⟩
  obtain ⟨diagnostics, read⟩ := read
  have written : WritesAt collidingDocument (some "./app/") laterScopes "./a" (.string "x:/one") :=
    @WritesAt.scope _ [] _ _ _ _ _ rfl List.mem_cons_self
  have alone : ¬ Overridden (pathUrl "/") laterScopes (some "./app/") "./a" (.string "x:/one") := by
    rintro ⟨mem, -, -, -, own, usable, -⟩
    cases List.mem_singleton.mp mem
    cases List.mem_singleton.mp own
    have key : some "b" = some "x:/a" :=
      congrArg (fun read => read.toOption.map Prod.fst) usable
    exact absurd key (by decide)
  have missing : ¬ (ofDocument collidingDocument).Keeps (pathUrl "/") (some "./app/") "./a"
      (.string "x:/one") := by
    rintro ⟨text, u, root, same, resolved, place, found⟩
    cases same
    cases place
    cases resolved
    exact absurd found (by decide)
  exact ⟨diagnostics, read, written, alone, missing,
    (kept_or_explained read written alone).resolve_left missing⟩

end ModuleSystem.ImportMap
