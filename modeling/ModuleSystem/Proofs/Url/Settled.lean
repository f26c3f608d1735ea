import ModuleSystem.Proofs.Url.Rereading

/-!
# URLs that are settled

The path of a URL that has been read holds no dotted segments, and that of a `file` URL begins with
one slash alone. So it is read again as it is where it is set, unless a drive letter that is written
with a bar stands at its front behind a host: it has come there because empty segments before it
were dropped.

## Main results

* `Url.IsRead.isSettled` : a URL that is read is settled, unless its path begins with such a drive
  letter behind a host.
-/

namespace ModuleSystem

/-- The fields joined again are the text. -/
theorem Text.join_fields (d : Char) (s : List Char) :
    join [d] (fields (· == d) s) = s := by
  induction s with
  | nil => rfl
  | cons c s ih =>
    rw [fields]
    cases eq : fields (· == d) s with
    | nil => exact absurd eq (fields_ne_nil _ _)
    | cons field others =>
      rw [eq] at ih
      split_ifs with stop
      · obtain rfl := beq_iff_eq.mp stop
        exact congrArg (c :: ·) ih
      · rw [← ih]
        cases others <;> rfl

namespace Url

variable {special file : Bool} {p : OpenPath} {s path segment : List Char}
  {segments : List (List Char)} {u b : Url}

/-! ### Paths without dotted segments -/

namespace OpenPath

theorem close_of_undotted (file : Bool) (p : OpenPath) (undotted : Undotted segment) :
    p.close file segment = { p with closed := (p.held ++ segment) :: p.closed, held := [] } ∨
      file = true ∧ isDriveLetter segment ∧ p.closed = [] ∧ p.held = [] ∧
        p.close file segment = { closed := [segment.take 1 ++ [':']], drive := true } := by
  rw [close, if_neg (by simp [undotted.2]), if_neg (by simp [undotted.1])]
  split_ifs with drive
  · simp only [Bool.and_eq_true, List.isEmpty_iff] at drive
    exact .inr ⟨drive.1.1.1, drive.2, drive.1.1.2, drive.1.2, rfl⟩
  · exact .inl rfl

theorem read_cons_cons (file : Bool) (p : OpenPath) (first next : List Char)
    (others : List (List Char)) : p.read file (first :: next :: others) =
      (p.close file first).read file (next :: others) :=
  rfl

/-- Segments that are not dotted stand behind those that have been read, where no drive letter can
stand. -/
theorem read_of_undotted (undotted : ∀ segment ∈ segments, Undotted segment) (ne : segments ≠ [])
    (held : p.held = []) (inner : file = true → p.closed ≠ []) :
    (p.read file segments).1 = p.closed.reverse ++ segments := by
  induction segments generalizing p with
  | nil => exact absurd rfl ne
  | cons first others ih =>
    have here := undotted first List.mem_cons_self
    cases others with
    | nil =>
      rcases finish_of_undotted file p here with eq | ⟨atFront, -, closed, -⟩
      · rw [read, eq, held, List.nil_append]
      · exact absurd closed (inner atFront)
    | cons next others =>
      rcases close_of_undotted file p here with eq | ⟨atFront, -, closed, -⟩
      · have rest : ∀ segment ∈ next :: others, Undotted segment :=
          fun s h => undotted s (List.mem_cons_of_mem _ h)
        rw [read_cons_cons, eq, ih rest (List.cons_ne_nil _ _) rfl fun _ => List.cons_ne_nil _ _]
        simp [held]
      · exact absurd closed (inner atFront)

/-- A drive letter at the front stays if it is written with a colon. -/
theorem read_of_normal {first : List Char} {others : List (List Char)}
    (undotted : ∀ segment ∈ first :: others, Undotted segment)
    (normal : file = true → isDriveLetter first → isNormalDriveLetter first) :
    (({} : OpenPath).read file (first :: others)).1 = first :: others := by
  have here := undotted first List.mem_cons_self
  have colon (atFront : file = true) (drive : isDriveLetter first) :
      first.take 1 ++ [':'] = first := by
    have last := normal atFront drive
    obtain ⟨a, b, rfl, -⟩ := isDriveLetter_cases drive
    simp [isNormalDriveLetter] at last
    simp [last.2]
  cases others with
  | nil =>
    rcases finish_of_undotted file {} here with eq | ⟨atFront, drive, -, -, eq⟩
    · rw [read, eq]
      rfl
    · rw [read, eq, colon atFront drive]
  | cons next others =>
    have rest : ∀ segment ∈ next :: others, Undotted segment :=
      fun s h => undotted s (List.mem_cons_of_mem _ h)
    obtain ⟨drive, eq⟩ : ∃ drive, ({} : OpenPath).close file first = ⟨[first], [], drive⟩ := by
      rcases close_of_undotted file {} here with eq | ⟨atFront, drive, -, -, eq⟩
      · exact ⟨false, eq⟩
      · exact ⟨true, by rw [eq, colon atFront drive]⟩
    rw [read_cons_cons, eq, read_of_undotted rest (List.cons_ne_nil _ _) rfl
      fun _ => List.cons_ne_nil _ _]
    rfl

end OpenPath

theorem join_dropWhile_fields (single : s.head? ≠ some '/') :
    Text.join ['/'] ((Text.fields (· == '/') s).dropWhile List.isEmpty) = s := by
  cases s with
  | nil => rfl
  | cons c s =>
    have other : ¬ (c == '/') = true := fun slash => single (by rw [beq_iff_eq.mp slash]; rfl)
    have whole := Text.join_fields '/' (c :: s)
    rw [Text.fields, if_neg other] at whole ⊢
    cases eq : Text.fields (· == '/') s with
    | nil => exact absurd eq (Text.fields_ne_nil _ _)
    | cons field others =>
      rw [eq] at whole
      rwa [List.dropWhile_cons_of_neg (by simp)]

/-- A path that has been read is kept where it is set, if a `file` path begins with one slash and
behind a host with no drive letter but one that has a colon. -/
theorem pathSet_of_pathText (text : PathText (isSpecialScheme u.scheme) path)
    (single : u.scheme = "file" → ¬ ['/', '/'] <+: path)
    (normal : u.scheme = "file" → u.host ≠ "" → ∀ first ∈ (pathSegments path).head?,
      isDriveLetter first → isNormalDriveLetter first) : (u.pathSet path).1 = path := by
  obtain ⟨rest, rfl, clean⟩ := text.exists_rest
  set segments := Text.fields (· == '/') rest with hsegments
  have whole : Text.join ['/'] segments = rest := Text.join_fields '/' rest
  have ne : segments ≠ [] := Text.fields_ne_nil _ _
  have undotted : ∀ segment ∈ segments, Undotted segment := fun segment mem => (clean segment mem).2
  have cut : Text.fields (fun c => c == '/' || (isSpecialScheme u.scheme && c == '\\')) rest =
      segments := by
    rw [← whole]
    exact Text.fields_join rfl (fun segment mem c hc => by
      simpa using ((clean segment mem).1 c hc).2.2) ne
  have encoded : segments.map (percentEncode inPathSet) = segments := by
    refine (List.map_congr_left fun segment mem => ?_).trans (List.map_id _)
    exact (clean segment mem).1.percentEncode
  have joined (file : u.scheme = "file") :
      Text.join ['/'] (segments.dropWhile List.isEmpty) = rest := by
    refine join_dropWhile_fields fun slash => single file ?_
    cases rest with
    | nil => cases slash
    | cons c rest =>
      cases slash
      exact ⟨rest, rfl⟩
  rw [pathSet, pathRead]
  by_cases lone : (u.scheme == "file" && u.host == "") = true
  · -- the slash at the front closes a segment of its own, which is dropped
    obtain ⟨file, -⟩ := Bool.and_eq_true_iff.mp lone
    have fields : Text.fields (fun c => c == '/' || (isSpecialScheme u.scheme && c == '\\'))
        ('/' :: rest) = [] :: segments := by
      rw [← cut, Text.fields, if_pos (by rfl)]
    have read : (({} : OpenPath).read true ([] :: segments)).1 = [] :: segments :=
      OpenPath.read_of_normal (List.forall_mem_cons.mpr ⟨undotted_nil, undotted⟩)
        fun _ drive => absurd drive (by decide)
    have nil : percentEncode inPathSet [] = [] := rfl
    rw [if_pos lone, file, continuePath, fields, List.map_cons, encoded, nil]
    dsimp only
    rw [read, pathText, if_pos rfl, List.dropWhile_cons_of_pos (by rfl),
      joined (beq_iff_eq.mp file)]
  · have read : (({} : OpenPath).read (u.scheme == "file") segments).1 = segments := by
      cases eq : segments with
      | nil => exact absurd eq ne
      | cons first others =>
        refine OpenPath.read_of_normal (eq ▸ undotted) fun file drive => ?_
        refine normal (beq_iff_eq.mp file) (fun none => lone (by simp [none, file])) first ?_ drive
        rw [pathSegments, ← hsegments, eq]
        rfl
    rw [if_neg lone, List.tail_cons, continuePath, cut, encoded]
    dsimp only
    rw [read, pathText]
    split_ifs with file
    · rw [joined (beq_iff_eq.mp file)]
    · rw [whole]

/-! ### Paths of `file` URLs -/

/-- A path that is continued in a `file` URL begins with one slash alone. -/
theorem continuePath_single (h : p.Shaped special) (s : List Char) :
    ¬ ['/', '/'] <+: (continuePath special true p s).1 := by
  have clean := continuePath_clean true h s
  rw [continuePath]
  dsimp only
  set segments := (p.read true ((Text.fields (fun c => c == '/' || (special && c == '\\')) s).map
    (percentEncode inPathSet))).1
  rw [pathText, if_pos rfl]
  have filled := List.head?_dropWhile_not List.isEmpty segments
  have sub := (List.dropWhile_sublist (p := List.isEmpty) (l := segments)).subset
  cases eq : segments.dropWhile List.isEmpty with
  | nil => simp [Text.join]
  | cons first others =>
    rw [eq] at filled sub
    cases first with
    | nil => cases filled
    | cons c first =>
      have slash := ((clean _ (sub List.mem_cons_self)).1 c List.mem_cons_self).2.2.1
      rintro ⟨t, same⟩
      cases others <;> exact slash (List.cons.inj (List.cons.inj same).2).1.symm

/-- The path of a `file` URL begins with one slash alone. -/
def SingleRoot (u : Url) : Prop :=
  u.scheme = "file" → ¬ ['/', '/'] <+: u.path.toList

theorem singleRoot_withRest (h : p.Shaped (isSpecialScheme u.scheme)) (s : List Char) :
    SingleRoot (withRest u p s) := by
  intro file
  have file : u.scheme = "file" := file
  have single := continuePath_single h (cutPath s).1
  simpa [withRest, withTail, file] using single

theorem readFileHost_singleRoot (h : readFileHost s = .ok u) : SingleRoot u := by
  have rest {a : Authority} (s : List Char) :
      SingleRoot (withRest { scheme := "file", authority := some a, path := "" } {} s) :=
    singleRoot_withRest .empty s
  rw [readFileHost] at h
  dsimp only at h
  split at h
  · cases h
    exact rest _
  · obtain ⟨host, -, h⟩ := exists_of_bind_eq_ok h
    split at h
    · cases h
      exact rest _
    · cases h
      split_ifs <;> exact rest _

theorem readFile_singleRoot {base : Option Url}
    (hb : ∀ b ∈ base, b.Shaped ∧ b.scheme = "file" ∧ SingleRoot b) (h : readFile base s = .ok u) :
    SingleRoot u := by
  have root {p : OpenPath} {a : Authority} (hp : p.Shaped true) (s : List Char) :
      SingleRoot (withRest { scheme := "file", authority := some a, path := "/" } p s) :=
    singleRoot_withRest (u := ⟨"file", some a, false, "/", none, none⟩) hp s
  have clean {b : Url} (here : b ∈ base) : PathText true b.path.toList ∨ b.path.toList = [] := by
    obtain ⟨shaped, file, -⟩ := hb b here
    have special : isSpecialScheme b.scheme = true := file ▸ rfl
    exact special ▸ shaped.pathText (shaped.hierarchical special)
  have fromRoot (s : List Char) : SingleRoot
      (readFile.fromRoot base { scheme := "file", authority := some {}, path := "/" } s) := by
    unfold readFile.fromRoot
    split
    · exact root .empty _
    · next b =>
      split
      · exact root .empty _
      · dsimp only
        split
        · next drive =>
          refine root ⟨?_, segmentText_nil, .inl rfl⟩ _
          have segments := PathText.clean_segments (clean rfl)
          cases eq : pathSegments b.path.toList with
          | nil => simp [eq, isNormalDriveLetter, isDriveLetter] at drive
          | cons first others =>
            rw [eq] at segments
            exact fun segment mem => segments segment (by simp_all)
        · exact root .empty _
  unfold readFile at h
  dsimp only at h
  split at h
  · split at h
    · split at h
      · split at h
        · exact readFileHost_singleRoot h
        · cases h
          exact fromRoot _
      · cases h
        exact fromRoot _
    · split at h
      · cases h
        exact root .empty _
      · next b =>
        obtain ⟨shaped, file, single⟩ := hb b rfl
        split_ifs at h <;> cases h
        · exact single
        · exact single
        · exact root .empty _
        · refine singleRoot_withRest ?_ _
          rw [show isSpecialScheme b.scheme = true by rw [file]; rfl]
          exact PathText.directory (clean rfl)
  · split at h
    · cases h
      exact root .empty _
    · next b =>
      cases h
      exact (hb b rfl).2.2

theorem readOther_scheme {scheme : String} (h : readOther scheme s = .ok u) :
    u.scheme = scheme := by
  unfold readOther at h
  split at h
  · exact (readAuthority_inv h).1
  · cases h
    rfl
  · cases h
    rfl

theorem readRelative_scheme (h : readRelative b s = .ok u) : u.scheme = b.scheme := by
  unfold readRelative at h
  split at h
  · cases h
    rfl
  · split_ifs at h
    · cases h
      rfl
    · cases h
      rfl
    · split at h
      · split_ifs at h
        · exact (readAuthority_inv h).1
        · exact (readAuthority_inv h).1
        · cases h
          rfl
      · cases h
        rfl
    · cases h
      rfl

theorem read_singleRoot {base : Option Url} (hb : ∀ b ∈ base, b.Shaped ∧ SingleRoot b)
    (h : read base s = .ok u) : SingleRoot u := by
  -- only what is read as a `file` URL is one
  have other {scheme : String} (same : u.scheme = scheme) (other : scheme ≠ "file") :
      SingleRoot u :=
    fun file => absurd (same.symm.trans file) other
  unfold read at h
  split at h
  · next scheme rest found =>
    split_ifs at h with file special
    · refine readFile_singleRoot (fun b mem => ?_) h
      obtain ⟨mem, same⟩ := Option.filter_eq_some_iff.mp mem
      exact ⟨(hb b mem).1, by simpa using same, (hb b mem).2⟩
    · have file : scheme ≠ "file" := by simpa using file
      split at h
      · next b =>
        split_ifs at h with near
        · obtain ⟨same, -⟩ := Bool.and_eq_true_iff.mp near
          exact other ((readRelative_scheme h).trans (by simpa using same)) file
        · exact other (readAuthority_inv h).1 file
      · exact other (readAuthority_inv h).1 file
    · exact other (readOther_scheme h) (by simpa using file)
  · split at h
    · cases h
    · next b =>
      obtain ⟨shaped, single⟩ := hb b rfl
      split_ifs at h with fragment loose file
      · cases h
        exact single
      · exact readFile_singleRoot (by simpa using ⟨shaped, by simpa using file, single⟩) h
      · exact other (readRelative_scheme h) (by simpa using file)

theorem IsRead.singleRoot (h : u.IsRead) : SingleRoot u := by
  induction h with
  | parse read => exact read_singleRoot (by simp) read
  | join base read ih => exact read_singleRoot (by simpa using ⟨base.shaped, ih⟩) read

/-- A URL that is read is settled if its path begins with a slash, unless the path begins behind a
host with a drive letter that has no colon. -/
theorem IsRead.isSettled (h : u.IsRead) (rooted : Text.isPrefix "/" u.path)
    (normal : u.scheme = "file" → u.host ≠ "" → ∀ first ∈ (pathSegments u.path.toList).head?,
      isDriveLetter first → isNormalDriveLetter first) : u.IsSettled := by
  have text := h.shaped.pathText_of_rooted rooted
  exact isSettled_of_pathSet rooted text (pathSet_of_pathText text h.singleRoot normal)

end Url

end ModuleSystem
