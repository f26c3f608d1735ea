import ModuleSystem.Proofs.Url.Heads

/-!
# URLs that are read again

The written form of a URL is read part by part, and its path as if it were set. So a URL that is
read from its own written form is settled, and with a text behind the last segment of its path it is
still read from its own written form.

## Main results

* `Url.parse_href_of_rooted` : what is read from the written form of such a URL with another path.
* `Url.isSettled_of_parse_href` : a URL that is read from its own written form is settled.
* `Url.parse_href_append` : it is still read from its own written form with a text behind its last
  segment.
-/

namespace ModuleSystem.Url

variable {u : Url} {s t : List Char} {scheme : String}

/-! ### What counts in a written form -/

/-- What counts of the text behind the first characters that are no blanks. -/
def relevantEnd (s : List Char) : List Char :=
  (s.reverse.dropWhile fun c => c.toNat ≤ 0x20).reverse.filter
    fun c => !(['\t', '\n', '\r'].contains c)

theorem relevantEnd_append (seen : ∀ c ∈ s, 0x20 < c.toNat) (t : List Char) :
    relevantEnd (s ++ t) = s ++ relevantEnd t := by
  have all : s.reverse.dropWhile (fun c => decide (c.toNat ≤ 0x20)) = s.reverse := by
    rw [List.dropWhile_eq_self_iff]
    intro h
    have := seen _ (List.mem_reverse.mp (List.getElem_mem h))
    simpa using this
  rw [relevantEnd, List.reverse_append, List.dropWhile_append, all]
  split_ifs with none
  · rw [List.reverse_reverse, filter_of_seen seen, relevantEnd, List.isEmpty_iff.mp none]
    simp
  · rw [List.reverse_append, List.reverse_reverse, List.filter_append, filter_of_seen seen,
      relevantEnd]

theorem relevant_append {text : String} (seen : ∀ c ∈ s, 0x20 < c.toNat) (ne : s ≠ [])
    (eq : text.toList = s ++ t) : relevant text = s ++ relevantEnd t := by
  rw [← relevantEnd_append seen, relevant, relevantEnd, eq]
  cases s with
  | nil => exact absurd rfl ne
  | cons c s =>
    have first := seen c List.mem_cons_self
    rw [List.cons_append, List.dropWhile_cons_of_neg (by simpa using first)]

/-- What counts of a query and a fragment ends a path. -/
theorem relevantEnd_head? (h : ∀ c ∈ s.head?, endsPath c) :
    ∀ c ∈ (relevantEnd s).head?, endsPath c := by
  cases s with
  | nil => simp [relevantEnd]
  | cons c s =>
    have here := h c rfl
    have seen : ∀ d ∈ [c], 0x20 < d.toNat := by
      intro d hd
      obtain rfl := List.mem_singleton.mp hd
      obtain rfl | rfl : d = '?' ∨ d = '#' := by simpa [endsPath] using here
      · decide
      · decide
    rw [← List.singleton_append, relevantEnd_append seen]
    simpa using here

/-! ### Reading a URL from its own written form -/

theorem cutPath_append (plain : ∀ c ∈ s, endsPath c = false) (ends : ∀ c ∈ t.head?, endsPath c) :
    cutPath (s ++ t) = (s, t) := by
  have all : ∀ c ∈ s, (!endsPath c) = true := fun c hc => by simp [plain c hc]
  rw [cutPath, List.takeWhile_append_of_pos all, List.dropWhile_append_of_pos all]
  cases t with
  | nil => simp
  | cons c t =>
    have stop : endsPath c = true := ends c rfl
    simp [stop]

/-- The reading of what follows the colon of a scheme. -/
def readBehindScheme (scheme : String) (s : List Char) : Except UrlError Url :=
  if scheme == "file" then readFile none s
  else if isSpecialScheme scheme then readAuthority scheme (s.dropWhile isSlash)
  else readOther scheme s

theorem read_of_isScheme (h : IsScheme scheme.toList) (s : List Char) :
    read none (scheme.toList ++ ':' :: s) = readBehindScheme scheme s := by
  rw [read, h.readScheme?, String.ofList_toList]
  rfl

theorem IsScheme.seen (h : IsScheme s) : ∀ c ∈ s, 0x20 < c.toNat := by
  intro c hc
  have here := (h.2 c hc).1
  simp only [Bool.or_eq_true, beq_iff_eq] at here
  rcases here with ((alnum | rfl) | rfl) | rfl
  · have := (bounds_of_isAlphanum alnum).1
    omega
  · decide
  · decide
  · decide

/-- What stands between the colon of the scheme and the path. -/
def lead (u : Url) : List Char :=
  (match u.authority with
    | some a => '/' :: '/' :: a.text.toList
    | none => []) ++ if u.marked then ['/', '.'] else []

theorem lead_seen (plain : ∀ a ∈ u.authority, PlainText a.text.toList) :
    ∀ c ∈ u.lead, 0x20 < c.toNat := by
  have slash : 0x20 < '/'.toNat := by decide
  intro c hc
  rcases List.mem_append.mp hc with hc | hc
  · split at hc
    · next a here =>
      rcases List.mem_cons.mp hc with rfl | hc
      · exact slash
      · rcases List.mem_cons.mp hc with rfl | hc
        · exact slash
        · exact (plain a here c hc).1
    · exact absurd hc List.not_mem_nil
  · have marks : c = '/' ∨ c = '.' := by
      split_ifs at hc
      · simpa using hc
      · exact absurd hc List.not_mem_nil
    rcases marks with rfl | rfl
    · exact slash
    · decide

theorem parse_href_eq (isScheme : IsScheme u.scheme.toList)
    (plain : ∀ a ∈ u.authority, PlainText a.text.toList) {path : List Char}
    (text : PathText (isSpecialScheme u.scheme) path) :
    Url.parse { u with path := String.ofList path }.href =
      readBehindScheme u.scheme (u.lead ++ (path ++ relevantEnd u.afterPath.toList)) := by
  have seen : ∀ c ∈ u.scheme.toList ++ ':' :: (u.lead ++ path), 0x20 < c.toNat := by
    intro c hc
    rcases List.mem_append.mp hc with hc | hc
    · exact isScheme.seen c hc
    · rcases List.mem_cons.mp hc with rfl | hc
      · decide
      · rcases List.mem_append.mp hc with hc | hc
        · exact lead_seen plain c hc
        · exact seen_of_kept (text.kept c hc).1
  have body : body { u with path := String.ofList path } =
      u.lead ++ (path ++ u.afterPath.toList) := by
    rw [body, String.toList_ofList]
    rfl
  have eq : { u with path := String.ofList path }.href.toList =
      (u.scheme.toList ++ ':' :: (u.lead ++ path)) ++ u.afterPath.toList := by
    rw [toList_href, body]
    simp
  rw [Url.parse, relevant_append seen (by simp) eq]
  have assoc : u.scheme.toList ++ ':' :: (u.lead ++ path) ++ relevantEnd u.afterPath.toList =
      u.scheme.toList ++ ':' :: (u.lead ++ (path ++ relevantEnd u.afterPath.toList)) := by
    simp
  rw [assoc, read_of_isScheme isScheme]

theorem Shaped.marked_of_rooted (h : u.Shaped)
    (text : PathText (isSpecialScheme u.scheme) u.path.toList) :
    u.marked = (u.authority.isNone && ['/', '/'].isPrefixOf u.path.toList) := by
  have rooted := text.rooted
  have path := h.path
  generalize u.path.toList = path at path rooted
  cases path with
  | rooted _ mark => exact mark
  | bare => cases rooted
  | loose _ _ _ flat => exact absurd rooted flat

/-- Behind an authority, the path goes on from the slash at its front. -/
theorem readAuthority_of_rooted {a : Authority} (h : Bare s) (here : u.authority = some a)
    {rest : List Char} (read : readAuthority scheme (s ++ '/' :: rest) = .ok u)
    (rest' : List Char) : readAuthority scheme (s ++ '/' :: rest') =
      .ok (withRest { scheme, authority := some a, path := "" } {} rest') := by
  obtain ⟨authority, same⟩ := readAuthority_append scheme h
  rw [same] at read ⊢
  cases authority with
  | error e => cases read
  | ok b =>
    cases read
    obtain rfl : b = a := Option.some.inj here
    rfl

/-- Behind no authority, the path goes on from the slash at its front. -/
theorem readOther_of_rooted (single : s.head? ≠ some '/') :
    readOther scheme ('/' :: s) = .ok (withRest { scheme, path := "" } {} s) := by
  cases s with
  | nil => rfl
  | cons c s =>
    unfold readOther
    split
    · next eq => exact absurd (congrArg List.head? (List.cons.inj eq).2) single
    · next eq => rw [(List.cons.inj eq).2]
    · next other => exact absurd rfl (other _)

/-- The mark before a path is a segment that names the directory it stands in. -/
theorem withRest_dot (u : Url) (s : List Char) :
    withRest u {} ('.' :: '/' :: s) = withRest u {} s := by
  have cut : cutPath ('.' :: '/' :: s) = ('.' :: '/' :: (cutPath s).1, (cutPath s).2) := by
    simp [cutPath, endsPath]
  have path (special file : Bool) (t : List Char) :
      continuePath special file {} ('.' :: '/' :: t) = continuePath special file {} t := by
    have fields : Text.fields (fun c => c == '/' || (special && c == '\\')) ('.' :: '/' :: t) =
        ['.'] :: Text.fields (fun c => c == '/' || (special && c == '\\')) t := by
      simp [Text.fields]
    rw [continuePath, continuePath, fields]
    cases eq : Text.fields (fun c => c == '/' || (special && c == '\\')) t with
    | nil => exact absurd eq (Text.fields_ne_nil _ _)
    | cons first others => rfl
  rw [withRest, withRest, cut]
  simp only [path]

theorem dropWhile_isSlash (h : Bare s) (ne : s ≠ []) (t : List Char) :
    ('/' :: '/' :: (s ++ t)).dropWhile isSlash = s ++ t := by
  cases s with
  | nil => exact absurd rfl ne
  | cons c s =>
    obtain ⟨slash, backslash, -⟩ := h c List.mem_cons_self
    simp [isSlash, slash, backslash]

theorem toList_text_ne {a : Authority} (h : a.host ≠ "") : a.text.toList ≠ [] := by
  have ne : a.host.toList ≠ [] := fun none => h (String.toList_injective none)
  rw [Authority.text, String.toList_append, String.toList_append]
  simp [ne]

theorem bare_of_shaped {a : Authority} (h : a.Shaped) (plain : PlainText a.text.toList) :
    Bare a.text.toList := by
  intro c hc
  have stops := h.of_mem_text hc
  simp only [List.mem_cons, List.not_mem_nil, or_false, not_or] at stops
  exact ⟨stops.1, (plain c hc).2, by simp [endsPath, stops.2.1, stops.2.2]⟩

/-- Behind an authority, the path is read as if it were set. -/
theorem readBehindScheme_named {a : Authority} (here : u.authority = some a)
    (bare : Bare a.text.toList) (named : isSpecialScheme u.scheme → u.scheme ≠ "file" → a.host ≠ "")
    {path path' : List Char} (text : PathText (isSpecialScheme u.scheme) path)
    (text' : PathText (isSpecialScheme u.scheme) path') (ends : ∀ c ∈ t.head?, endsPath c)
    (drive : (u.pathSet path').2 → (u.pathSet path).2)
    (read : readBehindScheme u.scheme ('/' :: '/' :: (a.text.toList ++ (path ++ t))) = .ok u) :
    readBehindScheme u.scheme ('/' :: '/' :: (a.text.toList ++ (path' ++ t))) =
      .ok (withRest u {} (u.pathRead path' ++ t)) := by
  obtain ⟨rest, rfl, -⟩ := text.exists_rest
  obtain ⟨rest', rfl, -⟩ := text'.exists_rest
  have alike : withRest u {} = withRest ⟨u.scheme, some a, false, "", none, none⟩ {} :=
    here ▸ rfl
  rw [alike]
  rw [readBehindScheme] at read ⊢
  by_cases file : u.scheme = "file"
  · have host : u.host = a.host := by simp [Url.host, here]
    have set (r : List Char) (plain : ∀ c ∈ '/' :: r, endsPath c = false) (named : a.host ≠ "") :
        continuePath true true {} (cutPath (r ++ t)).1 = u.pathSet ('/' :: r) := by
      rw [cutPath_append (fun c hc => plain c (List.mem_cons_of_mem _ hc)) ends]
      simp [pathSet, pathRead, file, host, named, isSpecialScheme]
    have front (s : List Char) : readFile none ('/' :: '/' :: s) = readFileHost s := rfl
    simp only [beq_iff_eq, file, if_true, front] at read ⊢
    rw [List.cons_append] at read ⊢
    rw [readFileHost_append bare here read fun named driven => ?_]
    · rw [pathRead, file, host]
      split_ifs <;> simp_all
    · have driven := drive ((congrArg Prod.snd (set rest' text'.plain named)).symm.trans driven)
      exact (congrArg Prod.snd (set rest text.plain named)).trans driven
  · have behind : u.pathRead ('/' :: rest') = rest' := by simp [pathRead, file]
    rw [behind]
    simp only [beq_iff_eq, file, if_false] at read ⊢
    by_cases special : isSpecialScheme u.scheme
    · have ne := toList_text_ne (named special file)
      simp only [special, if_true, dropWhile_isSlash bare ne] at read ⊢
      exact readAuthority_of_rooted bare here read _
    · simp only [special] at read ⊢
      exact readAuthority_of_rooted bare here read _

/-- Without an authority, too, the path is read as if it were set, if it has the mark that it
needs. -/
theorem readBehindScheme_nameless (here : u.authority = none)
    (other : isSpecialScheme u.scheme = false) {path : List Char}
    (text : PathText (isSpecialScheme u.scheme) path) (ends : ∀ c ∈ t.head?, endsPath c)
    (mark : u.marked = false → ¬ ['/', '/'] <+: path) :
    readBehindScheme u.scheme (u.lead ++ (path ++ t)) =
      .ok (withRest u {} (u.pathRead path ++ t)) := by
  obtain ⟨rest, rfl, -⟩ := text.exists_rest
  have alike : withRest u {} = withRest ⟨u.scheme, none, false, "", none, none⟩ {} := here ▸ rfl
  have file : ¬ u.scheme = "file" := fun file => by simp [file, isSpecialScheme] at other
  have behind : u.pathRead ('/' :: rest) = rest := by simp [pathRead, file]
  rw [alike, behind, readBehindScheme]
  simp only [beq_iff_eq, file, if_false, other]
  cases marked : u.marked with
  | true =>
    have lead : u.lead = ['/', '.'] := by
      rw [Url.lead, here, marked]
      rfl
    have dot (s : List Char) : (['.'] ++ '/' :: s).head? ≠ some '/' := by simp
    rw [lead]
    exact (readOther_of_rooted (dot _)).trans (congrArg Except.ok (withRest_dot _ _))
  | false =>
    have lead : u.lead = [] := by
      rw [Url.lead, here, marked]
      rfl
    rw [lead]
    refine readOther_of_rooted fun slash => mark marked ?_
    cases rest with
    | nil => exact absurd (ends '/' (by simpa using slash)) (by decide)
    | cons c rest =>
      obtain rfl : c = '/' := by simpa using slash
      exact ⟨rest, rfl⟩

/-- The written form of a URL that is read from it, with another path. -/
theorem parse_href_of_rooted (h : Url.parse u.href = .ok u)
    (text : PathText (isSpecialScheme u.scheme) u.path.toList) {path : List Char}
    (text' : PathText (isSpecialScheme u.scheme) path)
    (double : ['/', '/'] <+: path ↔ ['/', '/'] <+: u.path.toList)
    (drive : (u.pathSet path).2 → (u.pathSet u.path.toList).2) :
    Url.parse { u with path := String.ofList path }.href =
      .ok (withRest u {} (u.pathRead path ++ relevantEnd u.afterPath.toList)) := by
  have shaped := (IsRead.parse h).shaped
  obtain ⟨⟨_, found⟩, plain⟩ := read_inv h
  have isScheme := isScheme_of_readScheme? found
  have marked := shaped.marked_of_rooted text
  have ends := relevantEnd_head? u.afterPath_head?
  have written {path : List Char} (text : PathText (isSpecialScheme u.scheme) path) :=
    parse_href_eq isScheme (fun a ha => (plain a ha).1) text
  rw [written text']
  cases here : u.authority with
  | some a =>
    obtain ⟨plain, named⟩ := plain a here
    have lead : u.lead = '/' :: '/' :: a.text.toList := by
      rw [Url.lead, marked, here]
      simp
    have read := written text
    rw [String.ofList_toList, h, lead] at read
    rw [lead]
    exact readBehindScheme_named here (bare_of_shaped (shaped.authority a here) plain) named text
      text' ends drive read.symm
  | none =>
    have other : isSpecialScheme u.scheme = false := by
      by_contra special
      have := shaped.special (by simpa using special)
      simp [here] at this
    refine readBehindScheme_nameless here other text' ends fun unmarked twice => ?_
    rw [double, ← List.isPrefixOf_iff_prefix] at twice
    rw [unmarked, here, twice] at marked
    cases marked

theorem withRest_pathRead (u : Url) {path : List Char} (plain : ∀ c ∈ path, endsPath c = false)
    (ends : ∀ c ∈ t.head?, endsPath c) : withRest u {} (u.pathRead path ++ t) =
      withTail { u with
        marked := u.authority.isNone && ['/', '/'].isPrefixOf (u.pathSet path).1
        path := String.ofList (u.pathSet path).1 } t := by
  have plain : ∀ c ∈ u.pathRead path, endsPath c = false := by
    intro c hc
    rw [pathRead] at hc
    split_ifs at hc
    · exact plain c hc
    · exact plain c (List.mem_of_mem_tail hc)
  rw [withRest, cutPath_append plain ends]
  rfl

theorem Shaped.pathText_of_rooted (h : u.Shaped) (rooted : Text.isPrefix "/" u.path) :
    PathText (isSpecialScheme u.scheme) u.path.toList := by
  refine (h.pathText (hierarchical_of_rooted rooted)).resolve_right fun none => ?_
  simp [Text.isPrefix, none] at rooted

theorem withTail_eq (u : Url) (s : List Char) : withTail u s = { u with
    query := (readTail (isSpecialScheme u.scheme) s).1
    fragment := (readTail (isSpecialScheme u.scheme) s).2 } :=
  rfl

/-- The path of a URL that is read from its own written form is kept, and so is what stands behind
it. -/
theorem parts_of_parse_href (h : Url.parse u.href = .ok u)
    (text : PathText (isSpecialScheme u.scheme) u.path.toList) :
    (u.pathSet u.path.toList).1 = u.path.toList ∧
      readTail (isSpecialScheme u.scheme) (relevantEnd u.afterPath.toList) =
        (u.query, u.fragment) := by
  have read := parse_href_of_rooted h text text Iff.rfl id
  rw [String.ofList_toList, h, withRest_pathRead u text.plain (relevantEnd_head? u.afterPath_head?)]
    at read
  have same := Except.ok.inj read
  have path := congrArg (fun u : Url => u.path.toList) same
  have query := congrArg Url.query same
  have fragment := congrArg Url.fragment same
  exact ⟨by simpa [withTail] using path.symm, (Prod.ext query fragment).symm⟩

/-- A URL that is read from its own written form is settled. -/
theorem isSettled_of_parse_href (h : Url.parse u.href = .ok u) (rooted : Text.isPrefix "/" u.path) :
    u.IsSettled :=
  have text := (IsRead.parse h).shaped.pathText_of_rooted rooted
  isSettled_of_pathSet rooted text (parts_of_parse_href h text).1

/-- A URL that is read from its own written form still is with a text behind its last segment. -/
theorem parse_href_append (h : Url.parse u.href = .ok u) (rooted : Text.isPrefix "/" u.path)
    {name tail : List Char} (last : '/' :: name <:+ u.path.toList)
    (ext : Extends (isSpecialScheme u.scheme) name tail) :
    Url.parse { u with path := u.path ++ String.ofList tail }.href =
      .ok { u with path := u.path ++ String.ofList tail } := by
  have text := (IsRead.parse h).shaped.pathText_of_rooted rooted
  obtain ⟨same, behind⟩ := parts_of_parse_href h text
  obtain ⟨same', drive⟩ := pathSet_append text same last ext
  have text' : PathText (isSpecialScheme u.scheme) (u.path.toList ++ tail) := by
    rw [← same']
    exact continuePath_shaped _ .empty _
  -- the path has two characters at least, and begins with the same
  have double : ['/', '/'] <+: u.path.toList ++ tail ↔ ['/', '/'] <+: u.path.toList := by
    have long : 2 ≤ u.path.toList.length :=
      le_trans (Nat.succ_le_succ (List.length_pos_iff.mpr ext.ne)) last.length_le
    exact ⟨fun h => List.prefix_of_prefix_length_le h (List.prefix_append _ _) long,
      fun h => h.trans (List.prefix_append _ _)⟩
  have marked := (IsRead.parse h).shaped.marked_of_rooted text
  have eq : u.path ++ String.ofList tail = String.ofList (u.path.toList ++ tail) := by simp
  have mark : ['/', '/'].isPrefixOf (u.path.toList ++ tail) =
      ['/', '/'].isPrefixOf u.path.toList := by
    rw [Bool.eq_iff_iff, List.isPrefixOf_iff_prefix, List.isPrefixOf_iff_prefix, double]
  rw [eq, parse_href_of_rooted h text text' double drive,
    withRest_pathRead u text'.plain (relevantEnd_head? u.afterPath_head?), same', withTail_eq,
    behind, mark, ← marked]

end ModuleSystem.Url
