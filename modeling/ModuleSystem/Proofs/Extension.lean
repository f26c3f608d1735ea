import ModuleSystem.Proofs.Url.Settled
import ModuleSystem.Resolver.Basic

/-!
# Default extensions

A policy leaves a URL alone, or it puts its extension behind the last segment of the path and
changes nothing else. The segment then has an extension, so no policy changes the URL again.

## Main definitions

* `ExtensionPolicy.IsPlain` : an extension that no path escapes.
* `ExtensionPolicy.LeftAlone` : the URLs that a policy leaves alone.

## Main results

* `ExtensionPolicy.apply_once` : what a policy does to a URL, and that no policy does more.
-/

namespace ModuleSystem

open Url

namespace ExtensionPolicy

/-- A dot and any number of ASCII letters, digits, hyphens and underscores. -/
def IsPlain (extension : String) : Prop :=
  ∃ name, extension.toList = '.' :: name ∧ ∀ c ∈ name, c.isAlphanum ∨ c = '-' ∨ c = '_'

/-- The policy leaves the URL alone: it is opaque, a directory or has an extension, or there is none
to be added. -/
inductive LeftAlone (policy : ExtensionPolicy) (u : Url) (referrer : Option Url) : Prop
  | unrooted (unrooted : u.isOpaque)
  | directory {stem : List Char} (path : u.path.toList = stem ++ ['/'])
  | dotted {front name : List Char} (path : u.path.toList = front ++ '/' :: name)
    (last : '/' ∉ name) (dot : '.' ∈ name)
  | disabled (disabled : policy = .disabled)
  | none (none : policy.extensionFor referrer = "")

variable {policy : ExtensionPolicy} {u v : Url} {referrer : Option Url} {front name e : List Char}
  {path : String} {special : Bool}

/-! ### Reading the extension of a path -/

/-- The extension of a path is that of its last segment. -/
theorem extension_of_last (eq : path.toList = front ++ '/' :: name) (last : '/' ∉ name) :
    Specifier.extension path =
      if '.' ∈ name then String.ofList ('.' :: Text.afterLast (· == '.') name) else "" := by
  have plain : ∀ c ∈ name, (c == '/') = false := fun c hc => by
    simpa using fun same : c = '/' => last (same ▸ hc)
  rw [Specifier.extension, eq, Text.afterLast_append (by rfl) plain]
  simp

/-- What stands behind the last dot of the last segment is read back. -/
theorem extension_append (eq : path.toList = front ++ '/' :: (name ++ '.' :: e)) (last : '/' ∉ name)
    (plain : ∀ c ∈ e, c ≠ '/' ∧ c ≠ '.') : Specifier.extension path = String.ofList ('.' :: e) := by
  have last' : '/' ∉ name ++ '.' :: e := by
    simpa [last] using fun mem => (plain '/' mem).1 rfl
  rw [extension_of_last eq last', if_pos (by simp),
    Text.afterLast_append (by rfl) fun c hc => by simpa using (plain c hc).2]

/-! ### URLs that are left alone -/

theorem LeftAlone.apply (h : LeftAlone policy u referrer) : policy.apply u referrer = u := by
  refine if_pos ?_
  simp only [Bool.or_eq_true, bne_iff_ne, beq_iff_eq]
  cases h with
  | unrooted unrooted => exact .inl (.inl (.inl unrooted))
  | directory path => exact .inl (.inl (.inr (by simp [path, Text.endsWithChar])))
  | dotted path last dot =>
    refine .inl (.inr ?_)
    rw [extension_of_last path last, if_pos dot]
    simp
  | disabled disabled => exact .inr (by rw [disabled]; rfl)
  | none none => exact .inr none

/-- A URL that is not left alone has a last segment without a dot. -/
theorem exists_name_of_not_leftAlone (rooted : Text.isPrefix "/" u.path)
    (h : ¬ LeftAlone policy u referrer) :
    ∃ name, '/' :: name <:+ u.path.toList ∧ '/' ∉ name ∧ '.' ∉ name ∧ name ≠ [] := by
  have slash : '/' ∈ u.path.toList :=
    (List.isPrefixOf_iff_prefix.mp rooted).subset List.mem_cons_self
  obtain ⟨front, name, path, last⟩ := Text.exists_last slash
  refine ⟨name, ⟨front, path.symm⟩, last, fun dot => h (.dotted path last dot), ?_⟩
  rintro rfl
  exact h (.directory path)

theorem apply_of_not_leftAlone (rooted : Text.isPrefix "/" u.path)
    (h : ¬ LeftAlone policy u referrer) :
    policy.apply u referrer = u.withPath (u.path ++ policy.extensionFor referrer) := by
  obtain ⟨name, ⟨front, path⟩, last, dotless, -⟩ := exists_name_of_not_leftAlone rooted h
  refine if_neg ?_
  simp only [Bool.or_eq_true, bne_iff_ne, beq_iff_eq]
  rintro (((unrooted | slash) | dotted) | none)
  · exact h (.unrooted unrooted)
  · obtain ⟨stem, path⟩ := List.getLast?_eq_some_iff.mp (beq_iff_eq.mp slash)
    exact h (.directory path)
  · exact dotted (by rw [extension_of_last path.symm last, if_neg dotless])
  · exact h (.none none)

/-! ### Plain extensions -/

theorem of_plain_char {c : Char} (h : c.isAlphanum ∨ c = '-' ∨ c = '_') :
    inPathSet c = false ∧ c.toNat ≤ 0x7f ∧ c ≠ '/' ∧ c ≠ '\\' ∧ c ≠ '.' := by
  rcases h with alnum | rfl | rfl
  · obtain ⟨least, most⟩ := bounds_of_isAlphanum alnum
    have sign (d : Char) (out : d.isAlphanum = false) : c ≠ d := fun same => by
      rw [same, out] at alnum
      cases alnum
    have control : isControl c = false := by
      simp only [isControl, Bool.or_eq_false_iff, decide_eq_false_iff_not, beq_eq_false_iff_ne]
      omega
    refine ⟨?_, by omega, sign _ (by decide), sign _ (by decide), sign _ (by decide)⟩
    have outside : ∀ d ∈ [' ', '"', '<', '>', '\x60', '#', '?', '\x7b', '\x7d'], c ≠ d := by
      have signs : ∀ d ∈ [' ', '"', '<', '>', '\x60', '#', '?', '\x7b', '\x7d'],
          (!d.isAlphanum) = true := List.all_eq_true.mp (by decide)
      exact fun d mem => sign d (by simpa using signs d mem)
    simp only [List.forall_mem_cons, List.not_mem_nil, false_imp_iff, implies_true, and_true]
      at outside
    simp [inPathSet, inFragmentSet, control, outside]
  · decide
  · decide

/-- What begins without a dot and has one behind it is no dotted segment, unless it was before. -/
theorem undotted_append (undotted : Undotted name) (dotless : '.' ∉ name) (ne : name ≠ [])
    (e : List Char) : Undotted (name ++ '.' :: e) := by
  set lower := name.map Char.toLower with hlower
  have eq : (name ++ '.' :: e).map Char.toLower = lower ++ '.' :: e.map Char.toLower := by
    rw [List.map_append, List.map_cons]
    rfl
  have plain : ∀ c ∈ lower, c ≠ '.' := by
    intro c mem
    obtain ⟨d, here, rfl⟩ := List.mem_map.mp mem
    refine toLower_ne ?_ (by decide)
    rintro rfl
    exact dotless here
  have inside (t : List Char) (h : '.' ∉ t) : lower ++ '.' :: e.map Char.toLower ≠ t := by
    rintro rfl
    simp at h
  have front (t : List Char) : lower ++ '.' :: e.map Char.toLower ≠ '.' :: t := by
    cases eq : lower with
    | nil => exact absurd (List.map_eq_nil_iff.mp (hlower.symm.trans eq)) ne
    | cons c rest =>
      rintro ⟨⟩
      exact plain '.' (eq ▸ List.mem_cons_self) rfl
  have behind : lower ++ '.' :: e.map Char.toLower ≠ ['%', '2', 'e'] ++ ['.'] := by
    intro same
    have encoded :=
      (append_inj_of_stops (p := (· = '.')) plain (by simp) (by simp) (by simp) same).1
    simp [Undotted, isSingleDot, ← hlower, encoded] at undotted
  simp only [Undotted, isSingleDot, isDoubleDot, eq, Bool.or_eq_false_iff, beq_eq_false_iff_ne]
  exact ⟨⟨front _, inside _ (by decide)⟩, ⟨⟨front _, front _⟩, behind⟩, inside _ (by decide)⟩

/-- A plain extension can be put behind a segment that has been read and has no dot. -/
theorem extends_of_plain (text : SegmentText special name) (undotted : Undotted name)
    (dotless : '.' ∉ name) (ne : name ≠ [])
    (plain : ∀ c ∈ e, c.isAlphanum ∨ c = '-' ∨ c = '_') : Extends special name ('.' :: e) where
  ne := ne
  text := by
    intro c hc
    rcases List.mem_append.mp hc with hc | hc
    · exact text c hc
    · rcases List.mem_cons.mp hc with rfl | hc
      · exact ⟨rfl, by decide, by decide, fun _ => by decide⟩
      · obtain ⟨kept, ascii, slash, backslash, -⟩ := of_plain_char (plain c hc)
        exact ⟨kept, ascii, slash, fun _ => backslash⟩
  undotted := undotted_append undotted dotless ne e
  drive := by
    by_contra drive
    rw [Bool.not_eq_false] at drive
    obtain ⟨a, b, eq, -⟩ := isDriveLetter_cases drive
    match name, ne with
    | [c], _ =>
      obtain ⟨-, rfl, -⟩ : c = a ∧ '.' = b ∧ e = [] := by simpa using eq
      rw [eq] at drive
      simp [isDriveLetter, startsWithDriveLetter] at drive
    | c :: d :: rest, _ => simp at eq

/-! ### What a policy does -/

/-- A path that has an extension is left alone by every policy. -/
theorem apply_of_extension (h : Specifier.extension u.path ≠ "") (policy : ExtensionPolicy)
    (referrer : Option Url) : policy.apply u referrer = u :=
  if_pos (by simp [h])

/-- A text that begins with a scheme of two characters or more is not read against a base. -/
theorem hasScheme_href (scheme : IsScheme u.scheme.toList) (long : 2 ≤ u.scheme.length) :
    Specifier.hasScheme u.href := by
  have colon : ∀ c ∈ u.scheme.toList, (c != ':') = true := fun c hc => by
    rw [bne_iff_ne]
    rintro rfl
    exact absurd (scheme.2 _ hc).1 (by decide)
  rw [Specifier.hasScheme, toList_href, List.takeWhile_append_of_pos colon,
    List.takeWhile_cons_of_neg (by simp), List.append_nil]
  simp only [Bool.and_eq_true, decide_eq_true_eq, List.all_eq_true]
  refine ⟨⟨⟨by simp, String.length_toList ▸ long⟩, scheme.1⟩, fun c hc => ?_⟩
  exact (scheme.2 c (List.mem_of_mem_drop hc)).1

/-- A URL that is read from its own written form, and that no policy changes, is what a resolver
without an import map makes of that form. -/
theorem resolve_href (read : Url.parse u.href = .ok u) (long : 2 ≤ u.scheme.length)
    (fixed : ∀ policy referrer, apply policy u referrer = u) {r : Resolver}
    (plain : r.importMap = none) (referrer : Option Url) : r.resolve u.href referrer = .ok u := by
  obtain ⟨⟨_, found⟩, -⟩ := read_inv read
  have scheme := hasScheme_href (isScheme_of_readScheme? found) long
  have resolved : Specifier.resolvePlain u.href referrer = .ok u := by
    unfold Specifier.resolvePlain
    rw [if_pos scheme, read]
    rfl
  rw [Resolver.resolve, plain]
  dsimp only
  rw [resolved]
  exact congrArg Except.ok (fixed _ _)

/-- A policy leaves alone the URLs that `LeftAlone` lists. Of any other URL that is settled, as
those are that have been read (`Url.IsRead.isSettled`), it changes the path, which gets the extension
at its end, and nothing else. The extension is read back from the path, so no policy changes the URL
again; it is read from its own written form if the first one was; and a resolver without an import
map then makes the same URL of that form. -/
theorem apply_once (policy : ExtensionPolicy) {u : Url} (referrer : Option Url)
    (settled : u.IsSettled)
    (plain : policy.extensionFor referrer = "" ∨ IsPlain (policy.extensionFor referrer)) :
    (LeftAlone policy u referrer → policy.apply u referrer = u) ∧
    (¬ LeftAlone policy u referrer → ∃ v, policy.apply u referrer = v ∧
      v = { u with path := u.path ++ policy.extensionFor referrer } ∧
      Specifier.extension v.path = policy.extensionFor referrer ∧
      (∀ policy' referrer', apply policy' v referrer' = v) ∧
      (Url.parse u.href = .ok u → Url.parse v.href = .ok v) ∧
      (2 ≤ v.scheme.length → Url.parse v.href = .ok v → ∀ r : Resolver, r.importMap = none →
        ∀ referrer', r.resolve v.href referrer' = .ok v)) := by
  refine ⟨LeftAlone.apply, fun h => ?_⟩
  have rooted : Text.isPrefix "/" u.path :=
    (settled.resolve_left fun unrooted => h (.unrooted unrooted)).1
  obtain ⟨e, given, letters⟩ := plain.resolve_left fun none => h (.none none)
  obtain ⟨name, last, slashless, dotless, ne⟩ := exists_name_of_not_leftAlone rooted h
  obtain ⟨text, -⟩ := settled.pathSet (hierarchical_of_rooted rooted)
  have segment : SegmentText (isSpecialScheme u.scheme) name := by
    intro c hc
    obtain ⟨kept, ascii, backslash⟩ := text.kept c (last.subset (List.mem_cons_of_mem _ hc))
    exact ⟨kept, ascii, fun slash => slashless (slash ▸ hc), backslash⟩
  have ext := extends_of_plain segment (text.undotted last segment) dotless ne letters
  have written : policy.extensionFor referrer = String.ofList ('.' :: e) :=
    String.toList_injective (by simpa using given)
  have read : Specifier.extension (u.path ++ policy.extensionFor referrer) =
      policy.extensionFor referrer := by
    obtain ⟨front, path⟩ := last
    rw [written]
    have path : (u.path ++ String.ofList ('.' :: e)).toList =
        front ++ '/' :: (name ++ '.' :: e) := by
      simp [← path]
    refine extension_append path slashless fun c hc => ?_
    obtain ⟨-, -, slash, -, dot⟩ := of_plain_char (letters c hc)
    exact ⟨slash, dot⟩
  have fixed (policy' : ExtensionPolicy) (referrer' : Option Url) :
      policy'.apply { u with path := u.path ++ policy.extensionFor referrer } referrer' =
        { u with path := u.path ++ policy.extensionFor referrer } :=
    apply_of_extension (by rw [read, written]; simp) policy' referrer'
  refine ⟨_, ?_, rfl, read, fixed, fun again => ?_, fun long again r plain referrer' =>
    resolve_href again long fixed plain referrer'⟩
  · rw [apply_of_not_leftAlone rooted h, written]
    exact settled.withPath_append (hierarchical_of_rooted rooted) last ext
  · rw [written]
    exact parse_href_append again rooted last ext

/-- A URL with dots everywhere but in its last segment. -/
def dottedElsewhere : Url where
  scheme := "https"
  authority := some { host := "x.test" }
  path := "/a.b/c"
  query := some "v=1.2"
  fragment := some "d/e.f"

/-- A module with an extension. -/
def typedModule : Url where
  scheme := "file"
  authority := some {}
  path := "/p/main.test.ts"

theorem apply_once_inferred :
    dottedElsewhere.IsSettled ∧ IsPlain (infer.extensionFor typedModule) ∧
      ¬ LeftAlone infer dottedElsewhere typedModule ∧
      infer.apply dottedElsewhere typedModule = { dottedElsewhere with path := "/a.b/c.ts" } ∧
      ∀ referrer,
        Resolver.resolve ⟨none, .fixed ".js"⟩ "https://x.test/a.b/c.ts?v=1.2#d/e.f" referrer =
          .ok { dottedElsewhere with path := "/a.b/c.ts" } := by
  have settled : dottedElsewhere.IsSettled := .inr ⟨by decide, by decide⟩
  have plain : IsPlain (infer.extensionFor typedModule) := ⟨['t', 's'], by decide, by simp⟩
  have changed : ¬ LeftAlone infer dottedElsewhere typedModule :=
    fun h => absurd h.apply (by decide)
  obtain ⟨v, applied, rfl, -, -, again, resolved⟩ :=
    (apply_once infer typedModule settled (.inr plain)).2 changed
  refine ⟨settled, plain, changed, applied, ?_⟩
  exact resolved (by decide) (again (by decide)) ⟨none, .fixed ".js"⟩ rfl

end ExtensionPolicy

end ModuleSystem
