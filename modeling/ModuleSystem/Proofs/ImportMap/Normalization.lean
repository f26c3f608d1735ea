import ModuleSystem.Proofs.ImportMap.Diagnostics
import ModuleSystem.Proofs.ImportMap.Roundtrip
import ModuleSystem.Proofs.Text.Quoted

/-!
# Documents without an order

The entries of an object are read one after the other into a table, where a later one replaces an
earlier one of its key; and so are the scopes of a document, where those of one root are merged.
This file says what comes of it without the tables: of the entries of a key, the one with the
greatest specifier counts, and the mappings of a root are laid over each other in the order of the
written prefixes. Each entry that is not found in the mappings afterwards has cost a diagnostic.

## Main definitions

* `ImportMap.Maps` : an entry of an object maps a key to an address.
* `ImportMap.Binds` : the address that an object as a whole gives to a key.
* `ImportMap.ScopesAt` : the scopes of a document that have a root, in the order of their prefixes.

## Main results

* `ImportMap.get?_readMappings_iff` : what is found in the mappings of an object.
* `ImportMap.exists_scopesAt` : what is found in the scopes of a document.
* `ImportMap.normalizes_as_defined` : objects of mappings and of scopes are read as they are defined
  here, with one diagnostic for each entry that leaves none of its own.
-/

namespace ModuleSystem

/-- The UTF-8 encoding of a text. -/
def Text.utf8 (s : String) : List UInt8 :=
  s.toByteArray.data.toList

/-! ### Mappings -/

namespace Mappings.Ordered

variable {ms : Mappings} {key : String} {u : Url}

/-- An ordered table has an entry if this is what is found in it. -/
theorem mem_iff (ordered : ms.Ordered) : (key, u) ∈ ms ↔ ms.get? key = some u := by
  have entry : Table.found? Prod.fst key ms = some (key, u) ↔ (key, u) ∈ ms ∧ key = key :=
    Table.Sorted.found?_eq_some_iff Specifier.keyBefore_linear ordered
  rw [found?_eq, and_iff_left rfl] at entry
  rw [← entry]
  simp

/-- One more entry makes ordered mappings longer, unless it replaces one. -/
theorem length_put (ordered : ms.Ordered) :
    (ms.put key u).length = ms.length + if (ms.get? key).isSome then 0 else 1 := by
  have length : (ms.put key u).length =
      ms.length + if (Table.found? Prod.fst key ms).isSome then 0 else 1 :=
    Table.Sorted.length_merge Specifier.keyBefore_linear ordered
  rwa [found?_eq, Option.isSome_map] at length

end Mappings.Ordered

namespace ImportMap

open Text (utf8)

variable {base u v : Url} {scope : Option String} {specifier other key root : String}
  {entries before bodies : List (String × Json)} {entry member : String × Json}
  {written : List (String × List (String × Json))} {ms : Mappings} {ds : List Diagnostic}

/-! ### The definition -/

/-- The key of a specifier: the written form of the URL that it has as a URL-like specifier, and
otherwise the specifier itself. -/
inductive HasKey (base : Url) (specifier : String) : String → Prop
  | url {v : Url} (resolved : Specifier.resolve? specifier (some base) = .ok (some v)) :
    HasKey base specifier v.href
  | itself (unresolved : ∀ v, Specifier.resolve? specifier (some base) ≠ .ok (some v)) :
    HasKey base specifier specifier

/-- An object has an entry that maps a key to an address: its specifier is not empty and has the
key, and what it is mapped to is a string with this URL, which ends with a slash where the specifier
does. -/
structure Maps (base : Url) (entries : List (String × Json)) (specifier key : String) (u : Url) :
    Prop where
  named : specifier ≠ ""
  address : ∃ text, (specifier, .string text) ∈ entries ∧ Specifier.resolveAgainst text base = .ok u
  directory : (∃ stem, specifier = stem ++ "/") → ∃ stem, u.href = stem ++ "/"
  key : HasKey base specifier key

/-- An object gives an address to a key: of all its entries that map the key, the one with the
greatest specifier maps it to this address. -/
def Binds (base : Url) (entries : List (String × Json)) (key : String) (u : Url) : Prop :=
  ∃ specifier, Maps base entries specifier key u ∧
    ∀ other v, Maps base entries other key v → utf8 other ≤ utf8 specifier

/-- The scopes of an object of scopes, and the diagnostics. -/
def readScopes (base : Url) (bodies : List (String × Json)) : List Scope × List Diagnostic :=
  bodies.foldl (addScope base) ([], [])

/-- The objects among some scopes that have a root, each with its written prefix, in the order of
the prefixes. -/
structure ScopesAt (base : Url) (bodies : List (String × Json)) (root : String)
    (written : List (String × List (String × Json))) : Prop where
  mem_iff (scope : String × List (String × Json)) : scope ∈ written ↔
    (scope.1, .object scope.2) ∈ bodies ∧
      ∃ r, Specifier.resolveAgainst scope.1 base = .ok r ∧ r.href = root
  ascending : written.Pairwise fun a b => utf8 a.1 < utf8 b.1

/-- Mappings laid over each other, of which the later ones win; none if there are none. -/
def overlaid : List Mappings → Option Mappings
  | [] => none
  | first :: others => some (others.foldl Mappings.overlay first)

/-! ### Entries -/

theorem hasKey_iff : HasKey base specifier key ↔ key = normalizedKey base specifier := by
  constructor
  · rintro (resolved | unresolved)
    · rw [normalizedKey, resolved]
    · rw [normalizedKey]
      split
      · next v resolved => exact absurd resolved (unresolved v)
      · rfl
      · rfl
  · rintro rfl
    cases resolved : Specifier.resolve? specifier (some base) with
    | error reason =>
      rw [normalizedKey, resolved]
      exact .itself fun v h => by simp [resolved] at h
    | ok u? =>
      cases u? with
      | none =>
        rw [normalizedKey, resolved]
        exact .itself fun v h => by simp [resolved] at h
      | some u =>
        rw [normalizedKey, resolved]
        exact .url resolved

theorem maps_iff : Maps base entries specifier key u ↔ ∃ address,
    (specifier, address) ∈ entries ∧ readEntry base specifier address = .ok (key, u) := by
  have slash (s : String) : Text.endsWithChar s '/' ↔ ∃ stem, s = stem ++ "/" :=
    Text.endsWithChar_iff
  constructor
  · rintro ⟨named, ⟨text, mem, resolved⟩, directory, hasKey⟩
    refine ⟨.string text, mem, readEntry_eq_ok_iff.mpr ⟨named, ⟨text, rfl, resolved⟩, ?_, ?_⟩⟩
    · rwa [slash, slash]
    · exact hasKey_iff.mp hasKey
  · rintro ⟨address, mem, read⟩
    obtain ⟨named, ⟨text, rfl, resolved⟩, directory, key⟩ := readEntry_eq_ok_iff.mp read
    rw [slash, slash] at directory
    exact ⟨named, ⟨text, mem, resolved⟩, directory, hasKey_iff.mpr key⟩

theorem maps_append_iff : Maps base (before ++ [entry]) specifier key u ↔
    Maps base before specifier key u ∨
      specifier = entry.1 ∧ readEntry base entry.1 entry.2 = .ok (key, u) := by
  simp only [maps_iff, List.mem_append, List.mem_singleton, or_and_right, exists_or]
  refine or_congr_right ⟨?_, ?_⟩
  · rintro ⟨address, rfl, read⟩
    exact ⟨rfl, read⟩
  · rintro ⟨rfl, read⟩
    exact ⟨entry.2, rfl, read⟩

/-- What one more entry with a greater specifier than all others changes. -/
theorem binds_append_iff (last : ∀ e ∈ before, utf8 e.1 < utf8 entry.1) :
    Binds base (before ++ [entry]) key u ↔
      readEntry base entry.1 entry.2 = .ok (key, u) ∨
        (∀ v, readEntry base entry.1 entry.2 ≠ .ok (key, v)) ∧ Binds base before key u := by
  have less {specifier : String} {v : Url} (maps : Maps base before specifier key v) :
      utf8 specifier < utf8 entry.1 := by
    obtain ⟨text, mem, -⟩ := maps.address
    exact last _ mem
  constructor
  · rintro ⟨specifier, maps, greatest⟩
    rcases maps_append_iff.mp maps with maps | ⟨-, read⟩
    · refine .inr ⟨fun v read => ?_, specifier, maps, fun other v maps =>
        greatest other v (maps_append_iff.mpr (.inl maps))⟩
      exact greatest entry.1 v (maps_append_iff.mpr (.inr ⟨rfl, read⟩)) (less maps)
    · exact .inl read
  · rintro (read | ⟨unread, specifier, maps, greatest⟩)
    · refine ⟨entry.1, maps_append_iff.mpr (.inr ⟨rfl, read⟩), fun other v maps => ?_⟩
      rcases maps_append_iff.mp maps with maps | ⟨rfl, -⟩
      · exact List.le_of_lt (less maps)
      · exact List.le_refl _
    · refine ⟨specifier, maps_append_iff.mpr (.inl maps), fun other v maps => ?_⟩
      rcases maps_append_iff.mp maps with maps | ⟨-, read⟩
      · exact greatest other v maps
      · exact absurd read (unread v)

theorem not_binds_nil : ¬ Binds base [] key u := by
  rintro ⟨specifier, maps, -⟩
  obtain ⟨text, mem, -⟩ := maps.address
  exact List.not_mem_nil mem

/-! ### Objects of entries -/

theorem readMappings_append (base : Url) (scope : Option String) (before : List (String × Json))
    (entry : String × Json) : readMappings base scope (before ++ [entry]) =
      addEntry base scope (readMappings base scope before) entry := by
  rw [readMappings, List.foldl_append]
  rfl

/-- In a sorted table the last entry has the greatest name. -/
theorem utf8_lt_of_sorted {α : Type} {before : List (String × α)} {entry : String × α}
    (sorted : Table.Sorted Prod.fst Table.byBytes (before ++ [entry])) :
    ∀ e ∈ before, utf8 e.1 < utf8 entry.1 := by
  obtain ⟨-, -, last⟩ := List.pairwise_append.mp sorted
  exact fun e mem => Table.byBytes_iff.mp (last e mem entry (List.mem_singleton_self _))

/-- The mappings of an object have the address for a key that the object gives it. -/
theorem get?_readMappings_iff (sorted : Table.Sorted Prod.fst Table.byBytes entries) :
    (readMappings base scope entries).1.get? key = some u ↔ Binds base entries key u := by
  induction entries using List.reverseRecOn generalizing u with
  | nil => exact iff_of_false nofun not_binds_nil
  | append_singleton before entry ih =>
    have ih {u : Url} := @ih u (List.pairwise_append.mp sorted).1
    have ordered := readMappings_ordered base scope before
    rw [readMappings_append, binds_append_iff (utf8_lt_of_sorted sorted), ← ih]
    cases read : readEntry base entry.1 entry.2 with
    | error problem =>
      rw [← Prod.eta (readMappings base scope before), addEntry_of_error read]
      simp
    | ok added =>
      obtain ⟨name, address⟩ := added
      rw [← Prod.eta (readMappings base scope before), addEntry_of_ok read, ordered.get?_put]
      split_ifs with same
      · simp [same]
      · simp [same]

/-- One more entry leaves one more of the mappings, or a diagnostic that names it. -/
theorem addEntry_leaves {read : Mappings × List Diagnostic} (ordered : read.1.Ordered)
    (entry : String × Json) :
    ((addEntry base scope read entry).1.length = read.1.length + 1 ∧
        (addEntry base scope read entry).2 = read.2) ∨
      ((addEntry base scope read entry).1.length = read.1.length ∧
        ∃ problem, (addEntry base scope read entry).2 =
          read.2 ++ [{ problem, place := .entry scope entry.1 }]) := by
  obtain ⟨ms, ds⟩ := read
  cases usable : readEntry base entry.1 entry.2 with
  | error problem =>
    rw [addEntry_of_error usable]
    exact .inr ⟨rfl, problem, rfl⟩
  | ok added =>
    rw [addEntry_of_ok usable, ordered.length_put]
    cases ms.get? added.1 with
    | none => exact .inl ⟨rfl, List.append_nil ds⟩
    | some old => exact .inr ⟨rfl, .duplicateKey entry.1 added.1 old, rfl⟩

/-- The diagnostics of an object name some of its entries, in the order in which it has them, and
all others leave one of the mappings. -/
theorem exists_named (base : Url) (scope : Option String) (entries : List (String × Json)) :
    ∃ named : List String, named.Sublist (entries.map Prod.fst) ∧
      (readMappings base scope entries).2.map Diagnostic.place = named.map (.entry scope) ∧
      entries.length = (readMappings base scope entries).1.length + named.length := by
  induction entries using List.reverseRecOn with
  | nil => exact ⟨[], List.nil_sublist _, rfl, rfl⟩
  | append_singleton before entry ih =>
    obtain ⟨named, sub, places, length⟩ := ih
    rw [readMappings_append, List.map_append, List.length_append, length]
    rcases addEntry_leaves (readMappings_ordered base scope before) entry with
      ⟨longer, same⟩ | ⟨unchanged, problem, told⟩
    · refine ⟨named, sub.trans (List.sublist_append_left _ _), ?_, ?_⟩
      · rw [same, places]
      · rw [longer, List.length_singleton]
        omega
    · refine ⟨named ++ [entry.1], sub.append_right [entry.1], ?_, ?_⟩
      · rw [told, List.map_append, places, List.map_append]
        rfl
      · rw [unchanged, List.length_append, List.length_singleton, List.length_singleton]
        omega

/-- The entries of an object have places that read differently. -/
theorem entry_text_injective (scope : Option String) :
    Function.Injective fun specifier => (ImportMapPlace.entry scope specifier).text := by
  intro specifier other same
  cases scope with
  | none =>
    simp only [ImportMapPlace.text, String.append_left_inj, String.append_right_inj] at same
    exact Text.quote_injective same
  | some root =>
    simp only [ImportMapPlace.text, String.append_left_inj, String.append_right_inj] at same
    exact Text.quote_injective same

/-! ### Objects of scopes -/

/-- The map of a document consists of what is read from its two objects. -/
theorem normalize_objects (base : Url) (entries bodies : List (String × Json)) :
    normalize (.object [("imports", .object entries), ("scopes", .object bodies)]) base =
      .ok (⟨(readMappings base none entries).1, (readScopes base bodies).1⟩,
        (readMappings base none entries).2 ++ (readScopes base bodies).2) :=
  normalize_sections entries bodies

theorem readScopes_append (base : Url) (before : List (String × Json)) (member : String × Json) :
    readScopes base (before ++ [member]) = addScope base (readScopes base before) member := by
  rw [readScopes, List.foldl_append]
  rfl

theorem readScopes_ordered (base : Url) (bodies : List (String × Json)) :
    Scope.Ordered (readScopes base bodies).1 :=
  List.foldlRecOn (motive := fun read : List Scope × List Diagnostic => Scope.Ordered read.1)
    bodies _ Scope.Ordered.nil fun _ ordered member _ => addScope_ordered ordered member

theorem overlaid_append (lower : List Mappings) (upper : Mappings) :
    overlaid (lower ++ [upper]) = some ((overlaid lower).elim upper (·.overlay upper)) := by
  cases lower with
  | nil => rfl
  | cons first others =>
    rw [List.cons_append, overlaid, List.foldl_append]
    rfl

/-- A member that is no object of the root does not count. -/
theorem ScopesAt.skip (at_ : ScopesAt base before root written)
    (elsewhere : ∀ entries r, member.2 = .object entries →
      Specifier.resolveAgainst member.1 base = .ok r → r.href ≠ root) :
    ScopesAt base (before ++ [member]) root written where
  mem_iff scope := by
    rw [at_.mem_iff, List.mem_append, List.mem_singleton, or_and_right, iff_self_or]
    rintro ⟨rfl, r, resolved, here⟩
    exact absurd here (elsewhere scope.2 r rfl resolved)
  ascending := at_.ascending

/-- One more object of the root comes last. -/
theorem ScopesAt.snoc {name : String} (at_ : ScopesAt base before root written)
    (last : ∀ e ∈ before, utf8 e.1 < utf8 name)
    (resolved : Specifier.resolveAgainst name base = .ok u) (here : u.href = root) :
    ScopesAt base (before ++ [(name, .object entries)]) root (written ++ [(name, entries)]) where
  mem_iff scope := by
    rw [List.mem_append, List.mem_append, List.mem_singleton, List.mem_singleton, at_.mem_iff,
      or_and_right]
    refine or_congr_right ⟨?_, ?_⟩
    · rintro rfl
      exact ⟨rfl, u, resolved, here⟩
    · rintro ⟨same, -⟩
      obtain ⟨rfl, same⟩ := Prod.mk.inj same
      cases same
      rfl
  ascending := by
    refine List.pairwise_append.mpr ⟨at_.ascending, List.pairwise_singleton _ _, ?_⟩
    intro scope mem other single
    rw [List.mem_singleton.mp single]
    exact last _ ((at_.mem_iff scope).mp mem).1

/-- What is found in scopes after one more has been put into them. -/
theorem scope?_putInto {ss : List Scope} (ordered : Scope.Ordered ss) (own : Scope)
    (root : String) :
    (scope? { scopes := own.putInto ss } root).map Scope.mappings =
      if own.root.href = root then
        some (((scope? { scopes := ss } root).map Scope.mappings).elim own.mappings
          (·.overlay own.mappings))
      else (scope? { scopes := ss } root).map Scope.mappings := by
  have found : scope? { scopes := own.putInto ss } root =
      if own.root.href = root then
        some ((scope? { scopes := ss } root).elim own fun old =>
          { old with mappings := old.mappings.overlay own.mappings })
      else scope? { scopes := ss } root :=
    Table.Sorted.found?_merge Specifier.keyBefore_linear (fun _ _ _ => rfl) ordered.sorted
  rw [found]
  split_ifs
  · cases scope? { scopes := ss } root <;> rfl
  · rfl

/-- The mappings that are found under a root are those of the objects that have it, laid over each
other in the order of their prefixes. -/
theorem exists_scopesAt (sorted : Table.Sorted Prod.fst Table.byBytes bodies) (root : String) :
    ∃ written, ScopesAt base bodies root written ∧
      (scope? { scopes := (readScopes base bodies).1 } root).map Scope.mappings =
        overlaid (written.map fun scope => (readMappings base (some scope.1) scope.2).1) := by
  induction bodies using List.reverseRecOn with
  | nil => exact ⟨[], ⟨by simp, List.Pairwise.nil⟩, rfl⟩
  | append_singleton before member ih =>
    obtain ⟨written, at_, found⟩ := ih (List.pairwise_append.mp sorted).1
    obtain ⟨name, body⟩ := member
    rw [readScopes_append, ← Prod.eta (readScopes base before)]
    cases body with
    | object entries =>
      cases resolved : Specifier.resolveAgainst name base with
      | error reason =>
        rw [addScope_of_error resolved]
        exact ⟨written, at_.skip fun _ r _ h => by simp [resolved] at h, found⟩
      | ok u =>
        rw [addScope_of_ok resolved, scope?_putInto (readScopes_ordered base before), found]
        split_ifs with here
        · refine ⟨_, at_.snoc (utf8_lt_of_sorted sorted) resolved here, ?_⟩
          rw [List.map_append, List.map_singleton, overlaid_append]
        · refine ⟨written, at_.skip fun _ r _ h => ?_, rfl⟩
          cases resolved.symm.trans h
          exact here
    | null | bool | int | number | string | array =>
      exact ⟨written, at_.skip fun _ _ object _ => (by cases object), found⟩

/-! ### Reading as defined -/

/-- The mappings of an object bind the keys and addresses that the object gives, and each entry that
leaves none of them has cost a diagnostic: these name different entries, in the order of their
specifiers. Of an object of scopes, the mappings under a root are those of the objects that have it,
laid over each other in the order of their written prefixes. -/
theorem normalizes_as_defined (base : Url) (scope : Option String)
    (sorted : Table.Sorted Prod.fst Table.byBytes entries)
    (sorted' : Table.Sorted Prod.fst Table.byBytes bodies) :
    (∀ key u, (key, u) ∈ (readMappings base scope entries).1 ↔ Binds base entries key u) ∧
    entries.length =
      (readMappings base scope entries).1.length + (readMappings base scope entries).2.length ∧
    (∃ named : List String, named.Sublist (entries.map Prod.fst) ∧
      named.Pairwise (fun s t => utf8 s < utf8 t) ∧
      (readMappings base scope entries).2.map Diagnostic.place = named.map (.entry scope)) ∧
    ((readMappings base scope entries).2.map fun d => d.place.text).Nodup ∧
    ((readScopes base bodies).1.map fun scope => scope.root.href).Nodup ∧
    ∀ root, ∃ written, ScopesAt base bodies root written ∧
      (scope? { scopes := (readScopes base bodies).1 } root).map Scope.mappings =
        overlaid (written.map fun scope => (readMappings base (some scope.1) scope.2).1) := by
  obtain ⟨named, sub, places, length⟩ := exists_named base scope entries
  have ascending : (entries.map Prod.fst).Pairwise fun s t => utf8 s < utf8 t :=
    List.pairwise_map.mpr (List.Pairwise.imp Table.byBytes_iff.mp sorted)
  have ascending' := ascending.sublist sub
  have distinct : named.Nodup := ascending'.imp fun {s t} less same => by
    rw [same] at less
    exact List.lt_irrefl _ less
  have count := congrArg List.length places
  rw [List.length_map, List.length_map] at count
  refine ⟨fun key u => ?_, by rw [count, length], ⟨named, sub, ascending', places⟩, ?_, ?_,
    exists_scopesAt sorted'⟩
  · rw [(readMappings_ordered base scope entries).mem_iff, get?_readMappings_iff sorted]
  · have texts : ((readMappings base scope entries).2.map fun d => d.place.text) =
        named.map fun specifier => (ImportMapPlace.entry scope specifier).text := by
      have same := congrArg (List.map ImportMapPlace.text) places
      rwa [List.map_map, List.map_map] at same
    rw [texts]
    exact distinct.map (entry_text_injective scope)
  · exact List.pairwise_map.mpr
      ((readScopes_ordered base bodies).sorted.distinct Specifier.keyBefore_linear)

/-- Entries of which two have the same key, and three are of no use. -/
def crowdedEntries : List (String × Json) :=
  [("", .string "x:/none"), ("./a", .string "x:/one"), ("/a", .string "x:/two"),
    ("c/", .string "x:/c"), ("d", .null)]

/-- Scopes of which two have the same root, and one is of no use. -/
def crowdedBodies : List (String × Json) :=
  [("./app/", .object [("b", .string "x:/one"), ("c", .string "x:/c")]),
    ("/app/", .object [("b", .string "x:/two")]), ("x:/q/", .int 1)]

theorem normalizes_as_defined_crowded :
    Table.Sorted Prod.fst Table.byBytes crowdedEntries ∧
      Table.Sorted Prod.fst Table.byBytes crowdedBodies ∧
      normalize (.object [("imports", .object crowdedEntries), ("scopes", .object crowdedBodies)])
          (pathUrl "/") =
        .ok (⟨[("x:/a", pathUrl "/two")], (readScopes (pathUrl "/") crowdedBodies).1⟩,
          (readMappings (pathUrl "/") none crowdedEntries).2 ++
            (readScopes (pathUrl "/") crowdedBodies).2) ∧
      Binds (pathUrl "/") crowdedEntries "x:/a" (pathUrl "/two") ∧
      (readMappings (pathUrl "/") none crowdedEntries).2.length = 4 ∧
      ∃ written, ScopesAt (pathUrl "/") crowdedBodies "x:/app/" written ∧
        overlaid (written.map fun scope => (readMappings (pathUrl "/") (some scope.1) scope.2).1) =
          some [("b", pathUrl "/two"), ("c", pathUrl "/c")] := by
  have sorted : Table.Sorted Prod.fst Table.byBytes crowdedEntries := by
    simp only [crowdedEntries, Table.Sorted]
    decide
  have sorted' : Table.Sorted Prod.fst Table.byBytes crowdedBodies := by
    simp only [crowdedBodies, Table.Sorted]
    decide
  obtain ⟨binds, count, -, -, -, scopes⟩ :=
    normalizes_as_defined (pathUrl "/") none sorted sorted'
  have read : (readMappings (pathUrl "/") none crowdedEntries).1 = [("x:/a", pathUrl "/two")] := rfl
  obtain ⟨written, at_, found⟩ := scopes "x:/app/"
  have document := normalize_objects (pathUrl "/") crowdedEntries crowdedBodies
  rw [read] at document
  refine ⟨sorted, sorted', document, (binds _ _).mp (read ▸ List.mem_singleton_self _), ?_, written,
    at_, found.symm.trans rfl⟩
  rw [read] at count
  exact (Nat.add_left_cancel (show 1 + 4 = 1 + _ from count)).symm

end ImportMap

end ModuleSystem
