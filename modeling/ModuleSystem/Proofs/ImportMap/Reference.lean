import Mathlib.Data.Finset.Max
import ModuleSystem.ImportMap.Resolution
import ModuleSystem.Proofs.ImportMap.Order

/-!
# Resolution without an order

`ImportMap.resolve` walks through lists and takes the first mapping that fits. This file says what
an import map means without any order: the scopes and the mappings are only sets, and the one that
decides is the one with the longest key. On every map that documents and compositions give, the
walk finds exactly that.

## Main definitions

* `Specifier.Fits` : a key is the specifier, or it ends with a slash and begins it.
* `Mappings.Decides` : the entry of a set of mappings that speaks for a specifier.
* `ImportMap.Speaks` : the set of mappings, among those that hold for a referrer, that is asked.
* `ImportMap.Gives` : the answer of the deciding entry.
* `ImportMap.Resolves` : the answer of the map.

## Main results

* `ImportMap.Ordered.resolves_resolve` : what `resolve` answers is an answer of the map.
* `ImportMap.Ordered.resolve_eq` : the answer of the map is what `resolve` answers.
* `ImportMap.Made.resolve_eq_iff` : on the maps of documents and compositions, `resolve` is the
  definition without an order.
-/

namespace ModuleSystem

/-! ### Prefixes -/

namespace Text

variable {start s : String}

theorem isPrefix_iff : isPrefix start s ↔ ∃ rest, s = start ++ rest := by
  rw [isPrefix, List.isPrefixOf_iff_prefix]
  constructor
  · rintro ⟨rest, h⟩
    exact ⟨String.ofList rest, String.toList_injective (by simp [h])⟩
  · rintro ⟨rest, rfl⟩
    exact ⟨rest.toList, by simp⟩

@[simp]
theorem dropPrefix_append (start rest : String) : dropPrefix start (start ++ rest) = rest := by
  simp [dropPrefix]

theorem endsWithChar_iff {c : Char} :
    endsWithChar s c ↔ ∃ stem, s = stem ++ String.singleton c := by
  rw [endsWithChar, beq_iff_eq, List.getLast?_eq_some_iff]
  constructor
  · rintro ⟨stem, h⟩
    exact ⟨String.ofList stem, String.toList_injective (by simp [h])⟩
  · rintro ⟨stem, rfl⟩
    exact ⟨stem.toList, by simp⟩

end Text

namespace Specifier

/-- The directory ends with a slash and begins the text. -/
def Contains (directory s : String) : Prop :=
  (∃ stem, directory = stem ++ "/") ∧ ∃ rest, s = directory ++ rest

/-- The key is the specifier, or it ends with a slash and begins it. -/
def Fits (key s : String) : Prop :=
  key = s ∨ Contains key s

theorem isDirectoryOf_iff {directory s : String} :
    isDirectoryOf directory s ↔ Contains directory s := by
  rw [isDirectoryOf, Bool.and_eq_true, Text.endsWithChar_iff, Text.isPrefix_iff]
  rfl

theorem Fits.exists_rest {key s : String} (h : Fits key s) : ∃ rest, s = key ++ rest := by
  rcases h with rfl | ⟨-, h⟩
  · exact ⟨"", by simp⟩
  · exact h

/-- No key that fits is longer than the specifier. -/
theorem Fits.size_le {key s : String} (h : Fits key s) : key.utf8ByteSize ≤ s.utf8ByteSize := by
  obtain ⟨rest, rfl⟩ := h.exists_rest
  simp

private theorem eq_of_append_of_size {key rest : String}
    (size : (key ++ rest).utf8ByteSize = key.utf8ByteSize) : key ++ rest = key := by
  have empty : rest.utf8ByteSize = 0 := by simpa using size
  rw [String.utf8ByteSize_eq_zero_iff.1 empty, String.append_empty]

/-- Of the keys of one length, one fits at most. -/
theorem Fits.eq_of_size {key other s : String} (h : Fits key s) (h' : Fits other s)
    (size : key.utf8ByteSize = other.utf8ByteSize) : key = other := by
  have hkey : key.toList <+: s.toList := by
    obtain ⟨rest, rfl⟩ := h.exists_rest
    simp
  have hother : other.toList <+: s.toList := by
    obtain ⟨rest, rfl⟩ := h'.exists_rest
    simp
  -- of two beginnings of one text, one begins the other
  rcases List.prefix_or_prefix_of_prefix hkey hother with ⟨rest, h⟩ | ⟨rest, h⟩
  · obtain rfl : other = key ++ String.ofList rest := String.toList_injective (by simp [h])
    exact (eq_of_append_of_size size.symm).symm
  · obtain rfl : key = other ++ String.ofList rest := String.toList_injective (by simp [h])
    exact eq_of_append_of_size size

end Specifier

open Specifier (Fits)

/-! ### Mappings -/

namespace Mappings

variable {mappings : Mappings} {s key : String} {address : Url}

/-- Some key fits. -/
def Match (mappings : Mappings) (s : String) : Prop :=
  ∃ entry ∈ mappings, Fits entry.1 s

/-- The entry that speaks for a specifier: the one whose key is equal to it if there is one, and
otherwise the one with the longest key that ends with a slash and begins it. -/
structure Decides (mappings : Mappings) (s key : String) (address : Url) : Prop where
  mem : (key, address) ∈ mappings
  fits : Fits key s
  equal : (∃ entry ∈ mappings, entry.1 = s) → key = s
  longest {entry : String × Url} : entry ∈ mappings → Specifier.Contains entry.1 s → key ≠ s →
    entry.1.utf8ByteSize ≤ key.utf8ByteSize

/-- The deciding key is the longest of those that fit. -/
theorem Decides.size_le (decides : mappings.Decides s key address) {entry : String × Url}
    (mem : entry ∈ mappings) (fits : Fits entry.1 s) :
    entry.1.utf8ByteSize ≤ key.utf8ByteSize := by
  by_cases same : key = s
  · exact same ▸ fits.size_le
  · rcases fits with h | h
    · exact absurd (decides.equal ⟨entry, mem, h⟩) same
    · exact decides.longest mem h same

/-- The longest key that fits decides. -/
theorem Decides.of_longest (mem : (key, address) ∈ mappings) (fits : Fits key s)
    (longest : ∀ entry ∈ mappings, Fits entry.1 s → entry.1.utf8ByteSize ≤ key.utf8ByteSize) :
    mappings.Decides s key address where
  mem := mem
  fits := fits
  equal := by
    rintro ⟨entry, h, rfl⟩
    have whole : Fits entry.1 entry.1 := .inl rfl
    exact fits.eq_of_size whole (le_antisymm fits.size_le (longest entry h whole))
  longest h below _ := longest _ h (.inr below)

/-- If some key fits, one decides. -/
theorem Match.exists_decides (h : mappings.Match s) :
    ∃ key address, mappings.Decides s key address := by
  classical
  let fitting := (mappings.filter fun entry => decide (Fits entry.1 s)).toFinset
  have mem_fitting (entry : String × Url) :
      entry ∈ fitting ↔ entry ∈ mappings ∧ Fits entry.1 s := by
    simp [fitting]
  obtain ⟨some, hsome, fits⟩ := h
  obtain ⟨longest, hlongest, le⟩ := fitting.exists_max_image (fun entry => entry.1.utf8ByteSize)
    ⟨some, (mem_fitting some).2 ⟨hsome, fits⟩⟩
  obtain ⟨mem, fits⟩ := (mem_fitting longest).1 hlongest
  exact ⟨longest.1, longest.2, .of_longest mem fits fun entry h fits =>
    le entry ((mem_fitting entry).2 ⟨h, fits⟩)⟩

end Mappings

namespace ImportMap

variable {m : ImportMap} {specifier s key : String} {address u : Url} {referrer : Option Url}
  {result : Except ResolveError Url}

/-! ### The definition -/

/-- The scope holds for the referrer: its root is the referrer, or a directory above it. -/
def Holds (scope : Scope) (referrer : Option Url) : Prop :=
  ∃ r, referrer = some r ∧ Fits scope.root.href r.href

/-- The mappings that speak for a specifier: those of the scope with the longest root, among the
scopes that hold for the referrer and have a key that fits, and otherwise the imports. -/
inductive Speaks (m : ImportMap) (referrer : Option Url) (s : String) : Mappings → Prop where
  | scope {scope : Scope} (mem : scope ∈ m.scopes) (holds : Holds scope referrer)
    (fits : scope.mappings.Match s)
    (innermost : ∀ other ∈ m.scopes, Holds other referrer → other.mappings.Match s →
      other.root.href.utf8ByteSize ≤ scope.root.href.utf8ByteSize) :
    Speaks m referrer s scope.mappings
  | imports (silent : ∀ scope ∈ m.scopes, Holds scope referrer → ¬ scope.mappings.Match s)
    (fits : m.imports.Match s) :
    Speaks m referrer s m.imports

/-- No mappings speak for the specifier. -/
def Silent (m : ImportMap) (referrer : Option Url) (s : String) : Prop :=
  (∀ scope ∈ m.scopes, Holds scope referrer → ¬ scope.mappings.Match s) ∧ ¬ m.imports.Match s

/-- The answer of the entry that decides. An equal key gives the address; otherwise the rest of the
specifier is put behind the address, and the URL must not lead out of the address again. -/
inductive Gives (key : String) (address : Url) : String → Except ResolveError Url → Prop where
  | whole : Gives key address key (.ok address)
  | below {rest : String} {u : Url} (proper : rest ≠ "")
    (parsed : Url.parse (address.href ++ rest) = .ok u)
    (inside : ∃ tail, u.href = address.href ++ tail) :
    Gives key address (key ++ rest) (.ok u)
  | invalid {rest : String} {reason : UrlError} (proper : rest ≠ "")
    (unparsed : Url.parse (address.href ++ rest) = .error reason) :
    Gives key address (key ++ rest)
      (.error (.invalidMapping (key ++ rest) key (address.href ++ rest)))
  | backtracks {rest : String} {u : Url} (proper : rest ≠ "")
    (parsed : Url.parse (address.href ++ rest) = .ok u)
    (outside : ¬ ∃ tail, u.href = address.href ++ tail) :
    Gives key address (key ++ rest) (.error (.backtracking (key ++ rest) key address))

/-- The answer of a map. A URL-like specifier stands for its URL. The mappings that speak for it
decide, whatever their answer is; where none do, a URL-like specifier is its URL and a bare one is
an error. -/
inductive Resolves (m : ImportMap) (specifier : String) (referrer : Option Url) :
    Except ResolveError Url → Prop where
  | invalid {reason : SpecifierError}
    (unresolved : Specifier.resolve? specifier referrer = .error reason) :
    Resolves m specifier referrer (.error (.invalidSpecifier reason))
  | mapped {asUrl : Option Url} {mappings : Mappings} {key : String} {address : Url}
    {result : Except ResolveError Url}
    (resolved : Specifier.resolve? specifier referrer = .ok asUrl)
    (speaks : m.Speaks referrer ((asUrl.map Url.href).getD specifier) mappings)
    (decides : mappings.Decides ((asUrl.map Url.href).getD specifier) key address)
    (gives : Gives key address ((asUrl.map Url.href).getD specifier) result) :
    Resolves m specifier referrer result
  | url {u : Url} (resolved : Specifier.resolve? specifier referrer = .ok (some u))
    (silent : m.Silent referrer u.href) :
    Resolves m specifier referrer (.ok u)
  | unmapped (resolved : Specifier.resolve? specifier referrer = .ok none)
    (silent : m.Silent referrer specifier) :
    Resolves m specifier referrer (.error (.unmapped specifier referrer))

/-! ### The answer of an entry -/

theorem Gives.substitute (h : Gives key address s result) (ne : key ≠ s) :
    substitute s key address = result := by
  cases h with
  | whole => exact absurd rfl ne
  | below proper parsed inside =>
    simp [ImportMap.substitute, parsed, Text.isPrefix_iff.2 inside]
  | invalid proper unparsed => simp [ImportMap.substitute, unparsed]
  | backtracks proper parsed outside =>
    simp [ImportMap.substitute, parsed, mt Text.isPrefix_iff.1 outside]

/-- An equal key gives its address. -/
theorem Gives.eq_address (h : Gives key address s result) (same : key = s) :
    result = .ok address := by
  have empty {rest : String} (h : key = key ++ rest) : rest = "" := by simpa using h.symm
  cases h with
  | whole => rfl
  | below proper | invalid proper | backtracks proper => exact absurd (empty same) proper

/-- Every entry that fits gives an answer. -/
theorem exists_gives (address : Url) (fits : Fits key s) :
    ∃ result, Gives key address s result := by
  obtain ⟨rest, rfl⟩ := fits.exists_rest
  by_cases proper : rest = ""
  · exact ⟨.ok address, by simpa [proper] using Gives.whole⟩
  cases parsed : Url.parse (address.href ++ rest) with
  | error reason => exact ⟨_, .invalid proper parsed⟩
  | ok u =>
    by_cases inside : ∃ tail, u.href = address.href ++ tail
    · exact ⟨_, .below proper parsed inside⟩
    · exact ⟨_, .backtracks proper parsed inside⟩

/-! ### The walk through mappings -/

theorem applyMappings_of_not_match {mappings : Mappings} (h : ¬ mappings.Match s) :
    applyMappings s mappings = .ok none := by
  induction mappings with
  | nil => rfl
  | cons entry rest ih =>
    have first : ¬ Fits entry.1 s := fun fits => h ⟨entry, List.mem_cons_self, fits⟩
    have others : ¬ Mappings.Match rest s := fun ⟨other, mem, fits⟩ =>
      h ⟨other, List.mem_cons_of_mem entry mem, fits⟩
    obtain ⟨ne, outside⟩ := not_or.1 first
    rw [applyMappings, if_neg (by simpa using ne),
      if_neg (mt Specifier.isDirectoryOf_iff.1 outside), ih others]

/-- In ordered mappings the first key that fits is the one that decides. -/
theorem applyMappings_of_decides {mappings : Mappings} (ordered : mappings.Ordered)
    (decides : mappings.Decides s key address) (gives : Gives key address s result) :
    applyMappings s mappings = result.map some := by
  induction mappings with
  | nil => cases decides.mem
  | cons entry rest ih =>
    obtain ⟨before, others⟩ := List.pairwise_cons.1 ordered
    by_cases fits : Fits entry.1 s
    · -- a later key is not longer, so that the deciding one is here
      have same : entry = (key, address) := by
        rcases List.mem_cons.1 decides.mem with h | h
        · exact h.symm
        · have le := (Specifier.keyBefore_iff.1 (before _ h)).elim le_of_lt fun h => h.1.ge
          have eq := fits.eq_of_size decides.fits
            (le_antisymm (decides.size_le List.mem_cons_self fits) le)
          exact absurd (before _ h) (eq ▸ Specifier.keyBefore_linear.irrefl _)
      subst same
      by_cases equal : key = s
      · rw [applyMappings, if_pos (by simpa using equal), gives.eq_address equal]
        rfl
      · have below := Specifier.isDirectoryOf_iff.2 (fits.resolve_left equal)
        rw [applyMappings, if_neg (by simpa using equal), if_pos below, gives.substitute equal]
    · have later : (key, address) ∈ rest := by
        rcases List.mem_cons.1 decides.mem with h | h
        · exact absurd (h ▸ decides.fits) fits
        · exact h
      obtain ⟨ne, outside⟩ := not_or.1 fits
      rw [applyMappings, if_neg (by simpa using ne),
        if_neg (mt Specifier.isDirectoryOf_iff.1 outside)]
      exact ih others (.of_longest later decides.fits fun other h =>
        decides.size_le (List.mem_cons_of_mem entry h))

/-! ### The walk through scopes -/

theorem appliesTo_iff {scope : Scope} {r : Url} :
    appliesTo scope r ↔ Fits scope.root.href r.href := by
  rw [appliesTo, Bool.or_eq_true, beq_iff_eq, Specifier.isDirectoryOf_iff, Fits]

/-- The scopes that hold for a referrer, in the order in which they are asked. -/
def scopesFor (m : ImportMap) (referrer : Option Url) : List Scope :=
  match referrer with
  | some r => m.scopes.filter fun scope => appliesTo scope r
  | none => []

private theorem mem_scopesFor {scope : Scope} :
    scope ∈ scopesFor m referrer ↔ scope ∈ m.scopes ∧ Holds scope referrer := by
  cases referrer with
  | none => simp [scopesFor, Holds]
  | some r => simp [scopesFor, Holds, appliesTo_iff]

private theorem scopesFor_sublist : (scopesFor m referrer).Sublist m.scopes := by
  cases referrer with
  | none => exact List.nil_sublist _
  | some r => exact List.filter_sublist

/-- The scopes that hold for a referrer stand in the order of their lengths, no two of which are
equal: their roots begin one text. -/
private theorem scopesFor_pairwise (ordered : m.Ordered) (referrer : Option Url) :
    (scopesFor m referrer).Pairwise fun scope other =>
      other.root.href.utf8ByteSize < scope.root.href.utf8ByteSize := by
  have sorted : Table.Sorted _ _ (scopesFor m referrer) :=
    ordered.scopes.sorted.sublist scopesFor_sublist
  refine sorted.imp_of_mem fun {scope other} hs ho before => ?_
  obtain ⟨r, hr, fits⟩ := (mem_scopesFor.1 hs).2
  obtain ⟨r', hr', fits'⟩ := (mem_scopesFor.1 ho).2
  obtain rfl : r = r' := Option.some.inj (hr.symm.trans hr')
  rcases Specifier.keyBefore_iff.1 before with less | ⟨same, -⟩
  · exact less
  · simp only [fits.eq_of_size fits' same] at before
    exact absurd before (Specifier.keyBefore_linear.irrefl _)

theorem mappingsFor_eq :
    m.mappingsFor referrer = (scopesFor m referrer).map Scope.mappings ++ [m.imports] := by
  cases referrer <;> rfl

/-- Scopes without a key that fits are passed over. -/
theorem applyFirst_of_silent {scopes : List Scope} {others : List Mappings}
    (silent : ∀ scope ∈ scopes, ¬ scope.mappings.Match s) :
    applyFirst s (scopes.map Scope.mappings ++ others) = applyFirst s others := by
  induction scopes with
  | nil => rfl
  | cons scope rest ih =>
    rw [List.map_cons, List.cons_append, applyFirst,
      applyMappings_of_not_match (silent scope List.mem_cons_self)]
    exact ih fun other h => silent other (List.mem_cons_of_mem scope h)

/-- The first mappings with a key that fits end the walk, whatever their answer is. -/
theorem applyFirst_of_decides {mappings : Mappings} {others : List Mappings}
    (ordered : mappings.Ordered) (decides : mappings.Decides s key address)
    (gives : Gives key address s result) :
    applyFirst s (mappings :: others) = result.map some := by
  rw [applyFirst, applyMappings_of_decides ordered decides gives]
  cases result <;> rfl

/-- The walk ends at the mappings that speak for the specifier. -/
theorem applyFirst_of_speaks {mappings : Mappings} (ordered : m.Ordered)
    (speaks : m.Speaks referrer s mappings) (decides : mappings.Decides s key address)
    (gives : Gives key address s result) :
    applyFirst s (m.mappingsFor referrer) = result.map some := by
  rw [mappingsFor_eq]
  cases speaks with
  | imports silent fits =>
    rw [applyFirst_of_silent fun scope h =>
      silent scope (mem_scopesFor.1 h).1 (mem_scopesFor.1 h).2]
    exact applyFirst_of_decides ordered.imports decides gives
  | @scope scope mem holds fits innermost =>
    obtain ⟨outer, inner, split⟩ := List.append_of_mem (mem_scopesFor.2 ⟨mem, holds⟩)
    -- the scopes that are asked before have longer roots, so that no key of theirs fits
    have silent : ∀ other ∈ outer, ¬ other.mappings.Match s := by
      intro other h fits'
      have before : other ∈ scopesFor m referrer := split ▸ List.mem_append_left _ h
      have longer : scope.root.href.utf8ByteSize < other.root.href.utf8ByteSize := by
        have pairwise := scopesFor_pairwise ordered referrer
        rw [split] at pairwise
        exact (List.pairwise_append.1 pairwise).2.2 other h scope List.mem_cons_self
      have le := innermost other (mem_scopesFor.1 before).1 (mem_scopesFor.1 before).2 fits'
      omega
    rw [split, List.map_append, List.append_assoc, applyFirst_of_silent silent]
    exact applyFirst_of_decides (ordered.scopes.mappings mem) decides gives

theorem applyFirst_of_silence (silent : m.Silent referrer s) :
    applyFirst s (m.mappingsFor referrer) = .ok none := by
  rw [mappingsFor_eq, applyFirst_of_silent fun scope h =>
    silent.1 scope (mem_scopesFor.1 h).1 (mem_scopesFor.1 h).2]
  rw [applyFirst, applyMappings_of_not_match silent.2]
  rfl

/-- Either some mappings speak for a specifier, or none do. -/
theorem speaks_or_silent (m : ImportMap) (referrer : Option Url) (s : String) :
    (∃ mappings, m.Speaks referrer s mappings ∧ mappings.Match s) ∨ m.Silent referrer s := by
  classical
  let fitting := (m.scopes.filter fun scope =>
    decide (Holds scope referrer ∧ scope.mappings.Match s)).toFinset
  have mem_fitting (scope : Scope) : scope ∈ fitting ↔
      scope ∈ m.scopes ∧ Holds scope referrer ∧ scope.mappings.Match s := by
    simp [fitting]
  rcases fitting.eq_empty_or_nonempty with empty | nonempty
  · have silent : ∀ scope ∈ m.scopes, Holds scope referrer → ¬ scope.mappings.Match s :=
      fun scope mem holds fits => by
        have h := (mem_fitting scope).2 ⟨mem, holds, fits⟩
        simp [empty] at h
    by_cases fits : m.imports.Match s
    · exact .inl ⟨m.imports, .imports silent fits, fits⟩
    · exact .inr ⟨silent, fits⟩
  · obtain ⟨innermost, h, le⟩ :=
      fitting.exists_max_image (fun scope => scope.root.href.utf8ByteSize) nonempty
    obtain ⟨mem, holds, fits⟩ := (mem_fitting innermost).1 h
    exact .inl ⟨innermost.mappings, .scope mem holds fits fun other mem holds fits =>
      le other ((mem_fitting other).2 ⟨mem, holds, fits⟩), fits⟩

/-! ### The answer of a map -/

/-- The answer of an ordered map is what `resolve` answers. -/
theorem Ordered.resolve_eq (ordered : m.Ordered) (h : m.Resolves specifier referrer result) :
    m.resolve specifier referrer = result := by
  cases h with
  | invalid unresolved => simp [resolve, unresolved]
  | mapped resolved speaks decides gives =>
    rw [resolve, resolved]
    simp only [applyFirst_of_speaks ordered speaks decides gives]
    cases result <;> rfl
  | url resolved silent =>
    rw [resolve, resolved]
    simp only [Option.map_some, Option.getD_some, applyFirst_of_silence silent]
  | unmapped resolved silent =>
    rw [resolve, resolved]
    simp only [Option.map_none, Option.getD_none, applyFirst_of_silence silent]

/-- Every map has an answer. -/
theorem exists_resolves (m : ImportMap) (specifier : String) (referrer : Option Url) :
    ∃ result, m.Resolves specifier referrer result := by
  cases resolved : Specifier.resolve? specifier referrer with
  | error reason => exact ⟨_, .invalid resolved⟩
  | ok asUrl =>
    rcases m.speaks_or_silent referrer ((asUrl.map Url.href).getD specifier) with
      ⟨mappings, speaks, fits⟩ | silent
    · obtain ⟨key, address, decides⟩ := fits.exists_decides
      obtain ⟨result, gives⟩ := exists_gives address decides.fits
      exact ⟨result, .mapped resolved speaks decides gives⟩
    · cases asUrl with
      | none => exact ⟨_, .unmapped resolved silent⟩
      | some u => exact ⟨_, .url resolved silent⟩

/-- What `resolve` answers is the answer of the map. -/
theorem Ordered.resolves_resolve (ordered : m.Ordered) (specifier : String)
    (referrer : Option Url) : m.Resolves specifier referrer (m.resolve specifier referrer) := by
  obtain ⟨result, h⟩ := m.exists_resolves specifier referrer
  exact ordered.resolve_eq h ▸ h

/-- On every map that documents and compositions give, `resolve` answers what the definition
without an order does, for every specifier and with or without a referrer. -/
theorem Made.resolve_eq_iff (made : m.Made) (specifier : String) (referrer : Option Url)
    (result : Except ResolveError Url) :
    m.resolve specifier referrer = result ↔ m.Resolves specifier referrer result := by
  constructor
  · rintro rfl
    exact made.ordered.resolves_resolve specifier referrer
  · exact made.ordered.resolve_eq

/-- The URL `x:` with a path. -/
def pathUrl (path : String) : Url := { scheme := "x", path }

/-- A document that maps the directory `lib/` everywhere. -/
def libraryDocument : Json :=
  .object [("imports", .object [("lib/", .string "x:/lib/"), ("lib/b", .string "x:/b")])]

/-- A document that maps the directory `lib/` below `x:/app/`. -/
def ownDocument : Json :=
  .object [("scopes", .object [("x:/app/", .object [("lib/", .string "x:/own/")])])]

/-- The map of a document at `x:/`; empty where there is none. -/
def ofDocument (document : Json) : ImportMap :=
  match normalize document (pathUrl "/") with
  | .ok (m, _) => m
  | .error _ => {}

theorem made_ofDocument (members : List (String × Json)) :
    (ofDocument (.object members)).Made :=
  .normalized (show normalize (.object members) (pathUrl "/") =
    .ok (ofDocument (.object members), _) from rfl)

/-- The map of both documents. -/
def layered : ImportMap := (ofDocument libraryDocument).compose (ofDocument ownDocument)

theorem Made.resolve_eq_iff_layered :
    layered.Made ∧
    layered.Resolves "lib/b" (some (pathUrl "/app/main")) (.ok (pathUrl "/own/b")) ∧
    layered.Resolves "lib/b" (some (pathUrl "/main")) (.ok (pathUrl "/b")) ∧
    layered.Resolves "lib/a" none (.ok (pathUrl "/lib/a")) ∧
    layered.Resolves "lib/../a" none (.error (.backtracking "lib/../a" "lib/" (pathUrl "/lib/"))) ∧
    layered.Resolves "a" none (.error (.unmapped "a" none)) := by
  have made : layered.Made := .composed (made_ofDocument _) (made_ofDocument _)
  exact ⟨made, (resolve_eq_iff made _ _ _).1 rfl, (resolve_eq_iff made _ _ _).1 rfl,
    (resolve_eq_iff made _ _ _).1 rfl, (resolve_eq_iff made _ _ _).1 rfl,
    (resolve_eq_iff made _ _ _).1 rfl⟩

end ImportMap

end ModuleSystem
