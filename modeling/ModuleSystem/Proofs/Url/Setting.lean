import ModuleSystem.Proofs.Url.Containment

/-!
# Paths that are set

To set the path of a URL reads the path again. A URL whose path is set to itself without a change is
*settled*. What is put behind the last segment of its path then stays as it is, too, if it needs no
escape and makes the segment neither a dotted one nor a drive letter.

## Main definitions

* `Url.IsSettled` : the URL is opaque, or its path is set to itself without a change.
* `Url.Extends` : a text that can be put behind the last segment of a path.

## Main results

* `Url.continuePath_append` : a path that is read with a text behind its last segment.
* `Url.IsSettled.withPath_append` : setting the path with such a text behind it puts the text there.
-/

namespace ModuleSystem

/-! ### Text -/

namespace Text

variable {sep : Char → Bool} {s t field : List Char} {fields' : List (List Char)}

/-- The fields before a separator and those behind it. -/
theorem fields_append_sep {d : Char} (stop : sep d = true) (s t : List Char) :
    fields sep (s ++ d :: t) = fields sep s ++ fields sep t := by
  induction s with
  | nil => simp [fields, stop]
  | cons c s ih =>
    rw [List.cons_append, fields, fields, ih]
    split_ifs
    · rfl
    · cases eq : fields sep s with
      | nil => exact absurd eq (fields_ne_nil sep s)
      | cons field others => rfl

/-- What does not separate is put behind the last field. -/
theorem fields_append_plain (plain : ∀ c ∈ t, sep c = false)
    (h : fields sep s = fields' ++ [field]) : fields sep (s ++ t) = fields' ++ [field ++ t] := by
  induction s generalizing fields' field with
  | nil =>
    obtain ⟨rfl, rfl⟩ : fields' = [] ∧ field = [] := by
      cases fields' with
      | nil => exact ⟨rfl, ((List.cons.inj h).1).symm⟩
      | cons first others => exact absurd (List.cons.inj h).2.symm (by simp)
    exact fields_of_plain plain
  | cons c s ih =>
    rw [List.cons_append, fields]
    rw [fields] at h
    split_ifs at h ⊢
    · cases fields' with
      | nil => exact absurd (List.cons.inj h).2 (fields_ne_nil sep s)
      | cons first others =>
        obtain ⟨rfl, behind⟩ := List.cons.inj h
        rw [ih behind]
        rfl
    · cases eq : fields sep s with
      | nil => exact absurd eq (fields_ne_nil sep s)
      | cons first others =>
        rw [eq] at h
        cases fields' with
        | nil =>
          obtain ⟨rfl, rfl⟩ := List.cons.inj h
          have alone : fields sep s = [] ++ [first] := eq
          rw [ih alone]
          rfl
        | cons first' others' =>
          obtain ⟨rfl, rfl⟩ := List.cons.inj h
          have behind : fields sep s = (first :: others') ++ [field] := eq
          rw [ih behind]
          rfl

theorem join_concat_append (glue : List Char) (pieces : List (List Char)) (s t : List Char) :
    join glue (pieces ++ [s ++ t]) = join glue (pieces ++ [s]) ++ t := by
  induction pieces with
  | nil => rfl
  | cons piece others ih =>
    have cons (r : List Char) :
        join glue (piece :: (others ++ [r])) = piece ++ glue ++ join glue (others ++ [r]) := by
      cases others <;> rfl
    rw [List.cons_append, List.cons_append, cons, cons, ih, List.append_assoc _ _ t]

theorem afterLast_append {p : Char → Bool} {d : Char} (stop : p d = true)
    (plain : ∀ c ∈ t, p c = false) (s : List Char) : afterLast p (s ++ d :: t) = t := by
  have turned : (s ++ d :: t).reverse = t.reverse ++ d :: s.reverse := by simp
  rw [afterLast, turned, List.takeWhile_append_of_pos (by simpa using plain),
    List.takeWhile_cons_of_neg (by simp [stop]), List.append_nil, List.reverse_reverse]

/-- A text is cut at the last place where a character stands. -/
theorem exists_last {d : Char} (mem : d ∈ s) : ∃ front back, s = front ++ d :: back ∧ d ∉ back := by
  obtain ⟨back, front, eq, last⟩ := List.eq_append_cons_of_mem (List.mem_reverse.mpr mem)
  refine ⟨front.reverse, back.reverse, ?_, by simpa using last⟩
  rw [← List.reverse_reverse s, eq]
  simp

end Text

namespace Url

variable {special file : Bool} {p : OpenPath} {s path segment name tail : List Char}
  {segments : List (List Char)} {u : Url}

/-! ### Reading a path with a text behind its last segment -/

/-- What is not escaped stays. -/
theorem percentEncode_of_kept {escaped : Char → Bool}
    (kept : ∀ c ∈ s, escaped c = false ∧ c.toNat ≤ 0x7f) : percentEncode escaped s = s := by
  induction s with
  | nil => rfl
  | cons c s ih =>
    obtain ⟨stays, ascii⟩ := kept c List.mem_cons_self
    rw [percentEncode, List.flatMap_cons, percentEncodeChar, if_neg (by simp [stays, ascii]),
      ← percentEncode, ih fun c h => kept c (List.mem_cons_of_mem _ h)]
    rfl

theorem SegmentText.percentEncode (h : SegmentText special segment) :
    percentEncode inPathSet segment = segment :=
  percentEncode_of_kept fun c hc => ⟨(h c hc).1, (h c hc).2.1⟩

namespace OpenPath

/-- All segments but the last are closed. -/
theorem read_concat (file : Bool) (p : OpenPath) (segments : List (List Char))
    (segment : List Char) :
    p.read file (segments ++ [segment]) = (segments.foldl (close file) p).finish file segment := by
  induction segments generalizing p with
  | nil => rfl
  | cons first others ih =>
    rw [List.foldl_cons, ← ih]
    cases others <;> rfl

/-- The last segment is put behind the others, unless it is dotted or a drive letter at the
front. -/
theorem finish_of_undotted (file : Bool) (p : OpenPath) (undotted : Undotted segment) :
    p.finish file segment = (p.closed.reverse ++ [p.held ++ segment], p.drive) ∨
      file = true ∧ isDriveLetter segment ∧ p.closed = [] ∧ p.held = [] ∧
        p.finish file segment = ([segment.take 1 ++ [':']], true) := by
  rw [finish, if_neg (by simp [undotted.2]), if_neg (by simp [undotted.1])]
  split_ifs with drive
  · simp only [Bool.and_eq_true, List.isEmpty_iff] at drive
    exact .inr ⟨drive.1.1.1, drive.2, drive.1.1.2, drive.1.2, rfl⟩
  · exact .inl rfl

end OpenPath

/-- A text that can be put behind a segment. -/
structure Extends (special : Bool) (segment tail : List Char) : Prop where
  ne : segment ≠ []
  text : SegmentText special (segment ++ tail)
  undotted : Undotted (segment ++ tail)
  drive : isDriveLetter (segment ++ tail) = false

theorem Extends.left (h : Extends special segment tail) : SegmentText special segment :=
  fun c hc => h.text c (List.mem_append_left _ hc)

theorem pathText_concat_append (file : Bool) (segments : List (List Char)) (ne : segment ≠ [])
    (tail : List Char) : pathText file (segments ++ [segment ++ tail]) =
      pathText file (segments ++ [segment]) ++ tail := by
  have kept (r : List Char) (ne : r ≠ []) : (segments ++ [r]).dropWhile List.isEmpty =
      segments.dropWhile List.isEmpty ++ [r] := by
    rw [List.dropWhile_append]
    split_ifs with empty
    · rw [List.isEmpty_iff.mp empty, List.dropWhile_cons_of_neg (by simp [ne])]
      rfl
    · rfl
  rw [pathText, pathText]
  cases file
  · exact congrArg ('/' :: ·) (Text.join_concat_append _ _ _ _)
  · simp only [if_true, kept _ ne, kept _ (List.append_ne_nil_of_left_ne_nil ne tail),
      Text.join_concat_append, List.cons_append]

/-- A text behind the last segment stands there when the path has been read, if the segment itself
is kept. -/
theorem continuePath_append (file : Bool) (p : OpenPath)
    (last : Text.fields (fun c => c == '/' || (special && c == '\\')) s = segments ++ [name])
    (undotted : Undotted name) (kept : name <:+ (continuePath special file p s).1)
    (h : Extends special name tail) :
    (continuePath special file p (s ++ tail)).1 = (continuePath special file p s).1 ++ tail ∧
      ((continuePath special file p (s ++ tail)).2 → (continuePath special file p s).2) := by
  have plain : ∀ c ∈ tail, (c == '/' || (special && c == '\\')) = false := fun c hc => by
    simpa using (h.text c (List.mem_append_right _ hc)).2.2
  -- the segments before the last one are read in the same way
  set before := (segments.map (percentEncode inPathSet)).foldl (OpenPath.close file) p with hbefore
  have read : (segments ++ [name]).map (percentEncode inPathSet) =
      segments.map (percentEncode inPathSet) ++ [name] := by
    rw [List.map_append, List.map_singleton, h.left.percentEncode]
  have read' : (segments ++ [name ++ tail]).map (percentEncode inPathSet) =
      segments.map (percentEncode inPathSet) ++ [name ++ tail] := by
    rw [List.map_append, List.map_singleton, h.text.percentEncode]
  have path : continuePath special file p s = (pathText file (before.finish file name).1,
      (before.finish file name).2) := by
    rw [continuePath, last, read, OpenPath.read_concat]
  have path' : continuePath special file p (s ++ tail) =
      (pathText file (before.finish file (name ++ tail)).1,
        (before.finish file (name ++ tail)).2) := by
    rw [continuePath, Text.fields_append_plain plain last, read', OpenPath.read_concat]
  have finish' : before.finish file (name ++ tail) =
      (before.closed.reverse ++ [before.held ++ name ++ tail], before.drive) := by
    rcases OpenPath.finish_of_undotted file before h.undotted with eq | ⟨-, drive, -⟩
    · rw [eq, List.append_assoc]
    · exact absurd drive (by simp [h.drive])
  rw [path] at kept ⊢
  rw [path', finish', pathText_concat_append file _ (by simp [h.ne])]
  rcases OpenPath.finish_of_undotted file before undotted with eq | ⟨-, drive, closed, held, eq⟩
  · rw [eq]
    exact ⟨rfl, id⟩
  · -- a drive letter that is kept is one that is written with a colon
    rw [eq] at kept ⊢
    obtain ⟨a, b, rfl, -⟩ := isDriveLetter_cases drive
    have text : pathText file [[a, ':']] = '/' :: [a, ':'] := by cases file <;> rfl
    have kept : [a, b] <:+ '/' :: [a, ':'] := text ▸ kept
    have same : [a, b] = [a, ':'] :=
      (List.suffix_of_suffix_length_le kept (List.suffix_cons _ _) le_rfl).eq_of_length rfl
    rw [closed, held, same]
    exact ⟨rfl, fun _ => rfl⟩

/-! ### Setting a path -/

theorem hierarchical_of_rooted (rooted : Text.isPrefix "/" u.path) : u.isOpaque = false := by
  simp [isOpaque, rooted]

/-- What is read where a path that begins with a slash is set. -/
def pathRead (u : Url) (path : List Char) : List Char :=
  if u.scheme == "file" && u.host == "" then path else path.tail

/-- The path as it is read. -/
def pathSet (u : Url) (path : List Char) : List Char × Bool :=
  continuePath (isSpecialScheme u.scheme) (u.scheme == "file") {} (u.pathRead path)

/-- Setting the path of the URL to itself changes nothing; an opaque URL has no path to set. -/
def IsSettled (u : Url) : Prop :=
  u.isOpaque ∨ Text.isPrefix "/" u.path ∧ u.withPath u.path = u

theorem withPath_of_rooted (hierarchical : u.isOpaque = false) (rooted : path.head? = some '/') :
    u.withPath (String.ofList path) = { u with
      path := String.ofList
        (u.pathSet (path.filter fun c => !(['\t', '\n', '\r'].contains c))).1 } := by
  cases path with
  | nil => cases rooted
  | cons c rest =>
    cases rooted
    rw [withPath, if_neg (by simp [hierarchical]), String.toList_ofList,
      List.filter_cons_of_pos (by decide), pathSet, pathRead]
    rfl

/-- No character of a path has to be escaped in it. -/
theorem PathText.kept (h : PathText special path) :
    ∀ c ∈ path, inPathSet c = false ∧ c.toNat ≤ 0x7f ∧ (special → c ≠ '\\') := by
  have slash : inPathSet '/' = false ∧ '/'.toNat ≤ 0x7f ∧ (special → '/' ≠ '\\') :=
    ⟨rfl, by decide, fun _ => by decide⟩
  obtain ⟨rest, rfl, clean⟩ := h.exists_rest
  intro c hc
  rcases List.mem_cons.mp hc with rfl | hc
  · exact slash
  · rcases Text.exists_mem_fields (· == '/') hc with same | ⟨segment, mem, here⟩
    · obtain rfl := beq_iff_eq.mp same
      exact slash
    · obtain ⟨stays, ascii, -, backslash⟩ := (clean segment mem).1 c here
      exact ⟨stays, ascii, backslash⟩

theorem bounds_of_isAlphanum {c : Char} (h : c.isAlphanum) : 0x30 ≤ c.toNat ∧ c.toNat ≤ 0x7a := by
  simp only [Char.isAlphanum, Char.isAlpha, Char.isUpper, Char.isLower, Bool.or_eq_true,
    Bool.and_eq_true, decide_eq_true_eq, UInt32.le_iff_toNat_le, ge_iff_le,
    Char.isDigit_iff_toNat] at h
  have numbers : 'A'.val.toNat = 65 ∧ 'Z'.val.toNat = 90 ∧ 'a'.val.toNat = 97 ∧
      'z'.val.toNat = 122 ∧ '0'.toNat = 48 ∧ '9'.toNat = 57 ∧ c.val.toNat = c.toNat :=
    ⟨rfl, rfl, rfl, rfl, rfl, rfl, rfl⟩
  omega

theorem seen_of_kept {c : Char} (kept : inPathSet c = false) : 0x20 < c.toNat := by
  refine lt_of_le_of_ne (not_lt.mp fun low => ?_) fun blank => ?_
  · simp [inPathSet, inFragmentSet, isControl, low] at kept
  · obtain rfl : ' ' = c := Char.toNat_inj.mp blank
    cases kept

/-- A text without blanks has no breaks. -/
theorem filter_of_seen (seen : ∀ c ∈ s, 0x20 < c.toNat) :
    s.filter (fun c => !(['\t', '\n', '\r'].contains c)) = s := by
  refine List.filter_eq_self.mpr fun c hc => ?_
  rw [Bool.not_eq_true', ← Bool.not_eq_true, List.contains_iff_mem]
  intro mem
  have low : c.toNat ≤ 0x20 := by
    simp only [List.mem_cons, List.not_mem_nil, or_false] at mem
    rcases mem with rfl | rfl | rfl <;> decide
  exact absurd low (not_le.mpr (seen c hc))

/-- The path of a settled URL has been read, and is read again as it is. -/
theorem IsSettled.pathSet (h : u.IsSettled) (hierarchical : u.isOpaque = false) :
    PathText (isSpecialScheme u.scheme) u.path.toList ∧
      (u.pathSet u.path.toList).1 = u.path.toList := by
  obtain ⟨rooted, same⟩ := h.resolve_left (by simp [hierarchical])
  have first : u.path.toList.head? = some '/' := by
    obtain ⟨rest, eq⟩ := List.isPrefixOf_iff_prefix.mp rooted
    rw [← eq]
    rfl
  have set := withPath_of_rooted hierarchical first
  rw [String.ofList_toList, same] at set
  have path := congrArg (fun u : Url => u.path.toList) set
  simp only [String.toList_ofList] at path
  have text : PathText (isSpecialScheme u.scheme) u.path.toList := by
    rw [path]
    exact continuePath_shaped _ .empty _
  rw [filter_of_seen fun c hc => seen_of_kept (text.kept c hc).1] at path
  exact ⟨text, path.symm⟩

theorem isSettled_of_pathSet (rooted : Text.isPrefix "/" u.path)
    (text : PathText (isSpecialScheme u.scheme) u.path.toList)
    (same : (u.pathSet u.path.toList).1 = u.path.toList) : u.IsSettled := by
  have set := withPath_of_rooted (hierarchical_of_rooted rooted) text.rooted
  rw [filter_of_seen fun c hc => seen_of_kept (text.kept c hc).1, same, String.ofList_toList] at set
  exact .inr ⟨rooted, set⟩

theorem PathText.undotted (h : PathText special path) (last : '/' :: name <:+ path)
    (text : SegmentText special name) : Undotted name := by
  have plain : ∀ c ∈ name, (c == '/') = false := fun c hc => by simpa using (text c hc).2.2.1
  obtain ⟨front, rfl⟩ := last
  refine (h.clean name ?_).2
  cases front with
  | nil =>
    have eq : pathSegments ([] ++ '/' :: name) = [name] := Text.fields_of_plain plain
    exact eq ▸ List.mem_singleton_self _
  | cons c front =>
    have eq : pathSegments (c :: front ++ '/' :: name) =
        Text.fields (· == '/') front ++ Text.fields (· == '/') name :=
      Text.fields_append_sep rfl front name
    rw [eq, Text.fields_of_plain plain]
    exact List.mem_append_right _ (List.mem_singleton_self _)

/-- What is read where a path is set ends in the last segment of the path. -/
theorem exists_fields_pathRead (u : Url) (last : '/' :: name <:+ path)
    (text : SegmentText special name) : ∃ segments,
      Text.fields (fun c => c == '/' || (special && c == '\\')) (u.pathRead path) =
        segments ++ [name] := by
  have plain : ∀ c ∈ name, (c == '/' || (special && c == '\\')) = false := fun c hc => by
    simpa using (text c hc).2.2
  have behind (front : List Char) :
      Text.fields (fun c => c == '/' || (special && c == '\\')) (front ++ '/' :: name) =
        Text.fields (fun c => c == '/' || (special && c == '\\')) front ++ [name] := by
    rw [Text.fields_append_sep (by rfl), Text.fields_of_plain plain]
  obtain ⟨front, rfl⟩ := last
  rw [pathRead]
  split_ifs
  · exact ⟨_, behind front⟩
  · cases front with
    | nil => exact ⟨[], Text.fields_of_plain plain⟩
    | cons c front => exact ⟨_, behind front⟩

/-- A path that is kept where it is set is kept with a text behind its last segment as well. -/
theorem pathSet_append (text : PathText (isSpecialScheme u.scheme) path)
    (same : (u.pathSet path).1 = path) (last : '/' :: name <:+ path)
    (h : Extends (isSpecialScheme u.scheme) name tail) :
    (u.pathSet (path ++ tail)).1 = path ++ tail ∧
      ((u.pathSet (path ++ tail)).2 → (u.pathSet path).2) := by
  have read : u.pathRead (path ++ tail) = u.pathRead path ++ tail := by
    rw [pathRead, pathRead]
    split_ifs
    · rfl
    · exact List.tail_append_of_ne_nil (by rintro rfl; simp at last)
  obtain ⟨segments, fields⟩ := exists_fields_pathRead u last h.left
  have kept : name <:+ (u.pathSet path).1 := by
    rw [same]
    exact (List.suffix_cons '/' name).trans last
  have main := continuePath_append (u.scheme == "file") {} fields (text.undotted last h.left) kept h
  rw [pathSet, read]
  exact ⟨main.1.trans (congrArg (· ++ tail) same), main.2⟩

/-- A text behind the last segment of a settled path is set as it is. -/
theorem IsSettled.withPath_append (h : u.IsSettled) (hierarchical : u.isOpaque = false)
    (last : '/' :: name <:+ u.path.toList) (ext : Extends (isSpecialScheme u.scheme) name tail) :
    u.withPath (u.path ++ String.ofList tail) =
      { u with path := u.path ++ String.ofList tail } := by
  obtain ⟨text, same⟩ := h.pathSet hierarchical
  have seen : ∀ c ∈ u.path.toList ++ tail, 0x20 < c.toNat := fun c hc =>
    seen_of_kept ((List.mem_append.mp hc).elim (fun hc => (text.kept c hc).1)
      fun hc => (ext.text c (List.mem_append_right _ hc)).1)
  have rooted : (u.path.toList ++ tail).head? = some '/' := by
    rw [List.head?_append, text.rooted]
    rfl
  have eq : u.path ++ String.ofList tail = String.ofList (u.path.toList ++ tail) := by
    simp
  rw [eq, withPath_of_rooted hierarchical rooted, filter_of_seen seen,
    (pathSet_append text same last ext).1]

end Url

end ModuleSystem
