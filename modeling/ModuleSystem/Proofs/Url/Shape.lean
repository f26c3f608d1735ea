import Mathlib
import ModuleSystem.Url.Parser

/-!
# The shape of URLs

The parts of a URL that has been read hold only characters that cannot be taken for the end of the
part, and its path no segments that name a directory above or the one they stand in. So the written
form of a URL can be taken apart again.

## Main definitions

* `Url.IsRead` : the URLs that are read, alone or against another such URL.
* `Url.Shaped` : a URL whose parts can be told apart in its written form.

## Main results

* `Url.IsRead.shaped` : every URL that is read is shaped.
-/

namespace ModuleSystem

/-! ### Text -/

namespace Text

variable {sep : Char → Bool} {s field : List Char} {glue : List Char} {pieces : List (List Char)}
  {c : Char}

/-- A field holds characters of the text that do not separate. -/
theorem of_mem_fields (hf : field ∈ fields sep s) (hc : c ∈ field) : c ∈ s ∧ sep c = false := by
  induction s generalizing field with
  | nil =>
    obtain rfl := List.mem_singleton.mp hf
    exact absurd hc List.not_mem_nil
  | cons d rest ih =>
    rw [fields] at hf
    split_ifs at hf with h
    · rcases List.mem_cons.mp hf with rfl | hf
      · exact absurd hc List.not_mem_nil
      · exact (ih hf hc).imp_left (List.mem_cons_of_mem d)
    · cases hr : fields sep rest with
      | nil => exact absurd hr (fields_ne_nil sep rest)
      | cons first others =>
        rw [hr] at hf ih
        rcases List.mem_cons.mp hf with rfl | hf
        · rcases List.mem_cons.mp hc with rfl | hc
          · exact ⟨List.mem_cons_self, by simpa using h⟩
          · exact (ih List.mem_cons_self hc).imp_left (List.mem_cons_of_mem d)
        · exact (ih (List.mem_cons_of_mem _ hf) hc).imp_left (List.mem_cons_of_mem d)

/-- A character of a text separates, or it stands in a field. -/
theorem exists_mem_fields (sep : Char → Bool) (hc : c ∈ s) :
    sep c = true ∨ ∃ field ∈ fields sep s, c ∈ field := by
  induction s with
  | nil => exact absurd hc List.not_mem_nil
  | cons d rest ih =>
    rw [fields]
    split_ifs with h
    · rcases List.mem_cons.mp hc with rfl | hc
      · exact .inl h
      · rcases ih hc with h | ⟨field, mem, here⟩
        · exact .inl h
        · exact .inr ⟨field, List.mem_cons_of_mem _ mem, here⟩
    · cases hr : fields sep rest with
      | nil => exact absurd hr (fields_ne_nil sep rest)
      | cons first others =>
        rw [hr] at ih
        rcases List.mem_cons.mp hc with rfl | hc
        · exact .inr ⟨c :: first, List.mem_cons_self, List.mem_cons_self⟩
        · rcases ih hc with h | ⟨field, mem, here⟩
          · exact .inl h
          · rcases List.mem_cons.mp mem with rfl | mem
            · exact .inr ⟨d :: field, List.mem_cons_self, List.mem_cons_of_mem _ here⟩
            · exact .inr ⟨field, List.mem_cons_of_mem _ mem, here⟩

theorem mem_join (h : c ∈ join glue pieces) : c ∈ glue ∨ ∃ piece ∈ pieces, c ∈ piece := by
  induction pieces with
  | nil => exact absurd h List.not_mem_nil
  | cons piece others ih =>
    cases others with
    | nil => exact .inr ⟨piece, List.mem_cons_self, h⟩
    | cons next others =>
      rw [join] at h
      · simp only [List.mem_append] at h
        rcases h with (h | h) | h
        · exact .inr ⟨piece, List.mem_cons_self, h⟩
        · exact .inl h
        · rcases ih h with h | ⟨piece, mem, h⟩
          · exact .inl h
          · exact .inr ⟨piece, List.mem_cons_of_mem _ mem, h⟩
      · simp

theorem fields_append {d : Char} (plain : ∀ c ∈ s, sep c = false) (stop : sep d = true)
    (rest : List Char) : fields sep (s ++ d :: rest) = s :: fields sep rest := by
  induction s with
  | nil => rw [List.nil_append, fields, if_pos stop]
  | cons c s ih =>
    rw [List.cons_append, fields, if_neg (by simp [plain c List.mem_cons_self]),
      ih fun c h => plain c (List.mem_cons_of_mem _ h)]

theorem fields_of_plain (plain : ∀ c ∈ s, sep c = false) : fields sep s = [s] := by
  induction s with
  | nil => rfl
  | cons c s ih =>
    rw [fields, if_neg (by simp [plain c List.mem_cons_self]),
      ih fun c h => plain c (List.mem_cons_of_mem _ h)]

/-- Pieces without separators are the fields of their join. -/
theorem fields_join {d : Char} (stop : sep d = true) (plain : ∀ piece ∈ pieces, ∀ c ∈ piece,
    sep c = false) (ne : pieces ≠ []) : fields sep (join [d] pieces) = pieces := by
  induction pieces with
  | nil => exact absurd rfl ne
  | cons piece others ih =>
    have first := plain piece List.mem_cons_self
    cases others with
    | nil => exact fields_of_plain first
    | cons next others =>
      have eq : join [d] (piece :: next :: others) = piece ++ d :: join [d] (next :: others) := by
        rw [join]
        · simp
        · simp
      rw [eq, fields_append first stop,
        ih (fun piece h => plain piece (List.mem_cons_of_mem _ h)) (List.cons_ne_nil _ _)]

end Text

/-- Two texts are cut at the first character of a kind in one way only. -/
theorem append_inj_of_stops {p : Char → Prop} {s t r r' : List Char} (hs : ∀ c ∈ s, ¬ p c)
    (ht : ∀ c ∈ t, ¬ p c) (hr : ∀ c ∈ r.head?, p c) (hr' : ∀ c ∈ r'.head?, p c)
    (h : s ++ r = t ++ r') : s = t ∧ r = r' := by
  induction s generalizing t with
  | nil =>
    cases t with
    | nil => exact ⟨rfl, h⟩
    | cons d t =>
      have here : r = d :: (t ++ r') := h
      exact absurd (hr d (by rw [here]; rfl)) (ht d List.mem_cons_self)
  | cons c s ih =>
    cases t with
    | nil =>
      have here : r' = c :: (s ++ r) := h.symm
      exact absurd (hr' c (by rw [here]; rfl)) (hs c List.mem_cons_self)
    | cons d t =>
      obtain ⟨rfl, rest⟩ := List.cons.inj h
      obtain ⟨rfl, same⟩ := ih (fun c h => hs c (List.mem_cons_of_mem _ h))
        (fun c h => ht c (List.mem_cons_of_mem _ h)) rest
      exact ⟨rfl, same⟩

namespace Url

variable {escaped : Char → Bool} {s : List Char} {c : Char} {u b : Url}

/-! ### Percent encoding -/

/-- What holds of the percent sign, of hexadecimal digits, and of the ASCII characters of a text that
are not escaped, holds of all characters of its written form. -/
theorem percentEncode_all {P : Char → Prop} (percent : P '%')
    (digit : ∀ n < 16, P (hexDigitFrom 65 n))
    (kept : ∀ c ∈ s, escaped c = false → c.toNat ≤ 0x7f → P c) :
    ∀ c ∈ percentEncode escaped s, P c := by
  intro c hc
  obtain ⟨d, hd, hc⟩ := List.mem_flatMap.mp hc
  rw [percentEncodeChar] at hc
  split_ifs at hc with h
  · obtain ⟨byte, -, hc⟩ := List.mem_flatMap.mp hc
    have bound : byte.toNat < 256 := byte.toNat_lt
    rw [percentByte, List.mem_cons, List.mem_cons, List.mem_singleton] at hc
    rcases hc with rfl | rfl | rfl
    · exact percent
    · exact digit _ (by omega)
    · exact digit _ (by omega)
  · obtain rfl := List.mem_singleton.mp hc
    simp only [Bool.or_eq_true, decide_eq_true_eq, not_or, Bool.not_eq_true] at h
    exact kept c hd h.1 (by omega)

/-- What is written is not escaped again. -/
theorem percentEncode_kept (percent : escaped '%' = false)
    (digit : ∀ n < 16, escaped (hexDigitFrom 65 n) = false) :
    ∀ c ∈ percentEncode escaped s, escaped c = false ∧ c.toNat ≤ 0x7f := by
  have ascii : ∀ n < 16, (hexDigitFrom 65 n).toNat ≤ 0x7f := by decide
  exact percentEncode_all ⟨percent, by decide⟩ (fun n hn => ⟨digit n hn, ascii n hn⟩)
    fun c _ kept ascii => ⟨kept, ascii⟩

/-- The first character stays, or it is escaped. -/
theorem percentEncode_head? {d : Char} (first : s.head? ≠ some d) (percent : d ≠ '%') :
    (percentEncode escaped s).head? ≠ some d := by
  cases s with
  | nil => exact first
  | cons c rest =>
    rw [percentEncode, List.flatMap_cons, percentEncodeChar]
    split_ifs
    · cases bytes : String.utf8EncodeChar c with
      | nil => exact absurd bytes String.utf8EncodeChar_ne_nil
      | cons byte others => simpa [percentByte] using percent.symm
    · exact first

/-! ### Paths -/

/-- A segment of a path in its written form. -/
def SegmentText (special : Bool) (segment : List Char) : Prop :=
  ∀ c ∈ segment, inPathSet c = false ∧ c.toNat ≤ 0x7f ∧ c ≠ '/' ∧ (special → c ≠ '\\')

/-- A segment does not name the directory that it stands in, or the one above. -/
def Undotted (segment : List Char) : Prop :=
  isSingleDot segment = false ∧ isDoubleDot segment = false

/-- The segments of a path that has been read. -/
def Clean (special : Bool) (segments : List (List Char)) : Prop :=
  ∀ segment ∈ segments, SegmentText special segment ∧ Undotted segment

/-- A path, while it is read, has been read well so far. -/
structure OpenPath.Shaped (special : Bool) (p : OpenPath) : Prop where
  closed : Clean special p.closed
  held : SegmentText special p.held
  drive : p.held = [] ∨ isDriveLetter p.held

variable {special file : Bool} {segment : List Char} {segments : List (List Char)} {p : OpenPath}

theorem segmentText_percentEncode (plain : ∀ c ∈ segment, c ≠ '/' ∧ (special → c ≠ '\\')) :
    SegmentText special (percentEncode inPathSet segment) := by
  have digit : ∀ n < 16, inPathSet (hexDigitFrom 65 n) = false ∧
      (hexDigitFrom 65 n).toNat ≤ 0x7f ∧ hexDigitFrom 65 n ≠ '/' ∧ hexDigitFrom 65 n ≠ '\\' := by
    decide
  refine percentEncode_all ⟨rfl, by decide, by decide, fun _ => by decide⟩ (fun n hn => ?_)
    fun c hc kept ascii => ⟨kept, ascii, plain c hc⟩
  obtain ⟨kept, ascii, slash, backslash⟩ := digit n hn
  exact ⟨kept, ascii, slash, fun _ => backslash⟩

theorem segmentText_nil : SegmentText special [] :=
  fun _ h => absurd h List.not_mem_nil

theorem undotted_nil : Undotted [] :=
  ⟨rfl, rfl⟩

/-- A letter in lower case lies behind the digits and signs. -/
theorem lt_toLower (alpha : c.isAlpha) : 0x40 < c.toLower.toNat := by
  simp only [Char.isAlpha, Char.isUpper, Char.isLower, Bool.or_eq_true, Bool.and_eq_true,
    decide_eq_true_eq, UInt32.le_iff_toNat_le, ge_iff_le] at alpha
  rw [Char.toLower]
  split_ifs with upper
  · have bound : c.val.toNat ≤ 90 := UInt32.le_iff_toNat_le.mp upper.2
    have least : 65 ≤ c.val.toNat := UInt32.le_iff_toNat_le.mp upper.1
    have moved : (c.val + ('a'.val - 'A'.val)).toNat = c.val.toNat + 32 := by
      rw [UInt32.toNat_add, show ('a'.val - 'A'.val).toNat = 32 from rfl]
      exact Nat.mod_eq_of_lt (by omega)
    change 0x40 < (c.val + ('a'.val - 'A'.val)).toNat
    omega
  · have least : 65 ≤ c.val.toNat ∨ 97 ≤ c.val.toNat := alpha.imp And.left And.left
    change 0x40 < c.val.toNat
    omega

/-- No other character becomes a digit or a sign in lower case. -/
theorem toLower_ne {d : Char} (h : c ≠ d) (sign : d.toNat ≤ 0x40) : c.toLower ≠ d := by
  by_cases upper : c.isUpper
  · have bound := lt_toLower (c := c) (by simp [Char.isAlpha, upper])
    rintro rfl
    omega
  · rwa [Char.toLower_eq_of_not_isUpper upper]

/-- A segment that begins with a letter is undotted. -/
theorem undotted_of_isAlpha (alpha : c.isAlpha) (rest : List Char) : Undotted (c :: rest) := by
  have dot : c.toLower ≠ '.' := fun h => absurd (h ▸ lt_toLower alpha) (by decide)
  have percent : c.toLower ≠ '%' := fun h => absurd (h ▸ lt_toLower alpha) (by decide)
  simp [Undotted, isSingleDot, isDoubleDot, dot, percent]

theorem isDriveLetter_cases (h : isDriveLetter segment) :
    ∃ a b, segment = [a, b] ∧ a.isAlpha := by
  rw [isDriveLetter, Bool.and_eq_true, beq_iff_eq] at h
  obtain ⟨two, drive⟩ := h
  match segment, two with
  | [a, b], _ =>
    simp only [startsWithDriveLetter, Bool.and_eq_true] at drive
    exact ⟨a, b, rfl, drive.1.1⟩

theorem Clean.cons (first : SegmentText special segment) (undotted : Undotted segment)
    (h : Clean special segments) : Clean special (segment :: segments) := by
  intro other mem
  rcases List.mem_cons.mp mem with rfl | mem
  · exact ⟨first, undotted⟩
  · exact h other mem

namespace OpenPath.Shaped

theorem empty : OpenPath.Shaped special {} :=
  ⟨fun _ h => absurd h List.not_mem_nil, segmentText_nil, .inl rfl⟩

theorem settle (h : p.Shaped special) : p.settle.Shaped special := by
  rw [OpenPath.settle]
  split_ifs with none
  · exact h
  · obtain ⟨a, b, eq, alpha⟩ := isDriveLetter_cases (h.drive.resolve_left (by simpa using none))
    refine ⟨h.closed.cons h.held ?_, segmentText_nil, .inl rfl⟩
    rw [eq]
    exact undotted_of_isAlpha alpha _

theorem parent (h : p.Shaped special) : p.parent.Shaped special := by
  rw [OpenPath.parent]
  split
  · exact h
  · next segment others eq =>
    split_ifs
    · exact h
    · exact ⟨fun s mem => h.closed s (eq ▸ List.mem_cons_of_mem _ mem), h.held, h.drive⟩

/-- What stands in the open segment and what is put behind it make a segment. -/
theorem append (h : p.Shaped special) (text : SegmentText special segment)
    (single : isSingleDot segment = false) (double : isDoubleDot segment = false) :
    SegmentText special (p.held ++ segment) ∧ Undotted (p.held ++ segment) := by
  refine ⟨fun c hc => (List.mem_append.mp hc).elim (h.held c) (text c), ?_⟩
  rcases h.drive with none | drive
  · rw [none]
    exact ⟨single, double⟩
  · obtain ⟨a, b, eq, alpha⟩ := isDriveLetter_cases drive
    rw [eq]
    exact undotted_of_isAlpha alpha _

/-- A drive letter is a segment, also when it is written with a colon. -/
theorem normalDrive (text : SegmentText special segment) (drive : isDriveLetter segment) :
    SegmentText special (segment.take 1 ++ [':']) ∧ Undotted (segment.take 1 ++ [':']) := by
  obtain ⟨a, b, rfl, alpha⟩ := isDriveLetter_cases drive
  refine ⟨fun c hc => ?_, undotted_of_isAlpha alpha _⟩
  rcases List.mem_cons.mp hc with rfl | hc
  · exact text _ List.mem_cons_self
  · obtain rfl := List.mem_singleton.mp hc
    exact ⟨rfl, by decide, by decide, fun _ => by decide⟩

theorem close (h : p.Shaped special) (text : SegmentText special segment) :
    (p.close file segment).Shaped special := by
  rw [OpenPath.close]
  split_ifs with double held single drive
  · exact h.parent
  · exact h.settle
  · exact h.settle
  · obtain ⟨text, undotted⟩ := normalDrive text (Bool.and_eq_true_iff.mp drive).2
    exact ⟨Clean.cons text undotted fun _ h => absurd h List.not_mem_nil, segmentText_nil, .inl rfl⟩
  · obtain ⟨text, undotted⟩ := h.append text (by simpa using single) (by simpa using double)
    exact ⟨h.closed.cons text undotted, segmentText_nil, .inl rfl⟩

/-- The closed segments with one more behind them. -/
theorem clean_reverse (h : p.Shaped special) (text : SegmentText special segment)
    (undotted : Undotted segment) : Clean special (p.closed.reverse ++ [segment]) := by
  intro other mem
  rcases List.mem_append.mp mem with mem | mem
  · exact h.closed other (List.mem_reverse.mp mem)
  · obtain rfl := List.mem_singleton.mp mem
    exact ⟨text, undotted⟩

theorem finish (h : p.Shaped special) (text : SegmentText special segment) :
    Clean special (p.finish file segment).1 := by
  rw [OpenPath.finish]
  split_ifs with double held single drive
  · exact h.parent.clean_reverse segmentText_nil undotted_nil
  · obtain ⟨a, b, eq, alpha⟩ := isDriveLetter_cases (h.drive.resolve_left (by simpa using held))
    exact h.clean_reverse h.held (eq ▸ undotted_of_isAlpha alpha _)
  · exact h.settle.clean_reverse segmentText_nil undotted_nil
  · obtain ⟨text, undotted⟩ := normalDrive text (Bool.and_eq_true_iff.mp drive).2
    exact Clean.cons text undotted fun _ h => absurd h List.not_mem_nil
  · obtain ⟨text, undotted⟩ := h.append text (by simpa using single) (by simpa using double)
    exact h.clean_reverse text undotted

theorem read (h : p.Shaped special) (text : ∀ segment ∈ segments, SegmentText special segment) :
    Clean special (p.read file segments).1 := by
  induction segments generalizing p with
  | nil => exact h.finish segmentText_nil
  | cons segment others ih =>
    have first := text segment List.mem_cons_self
    cases others with
    | nil => exact h.finish first
    | cons next others =>
      exact ih (h.close first) fun segment mem => text segment (List.mem_cons_of_mem _ mem)

end OpenPath.Shaped

/-- A path that begins with a slash in its written form. -/
structure PathText (special : Bool) (path : List Char) : Prop where
  rooted : path.head? = some '/'
  clean : Clean special (pathSegments path)

theorem pathText_shaped (clean : Clean special segments) :
    PathText special (pathText file segments) := by
  refine ⟨rfl, ?_⟩
  rw [pathText]
  dsimp only [pathSegments]
  set kept := if file = true then List.dropWhile List.isEmpty segments else segments with hkept
  have clean : Clean special kept := by
    intro segment mem
    refine clean segment ?_
    rw [hkept] at mem
    split_ifs at mem
    · exact (List.dropWhile_sublist _).subset mem
    · exact mem
  by_cases empty : kept = []
  · rw [empty]
    exact Clean.cons segmentText_nil undotted_nil fun _ h => absurd h List.not_mem_nil
  · rw [Text.fields_join (by rfl) (fun piece mem c hc => by
      simpa using ((clean piece mem).1 c hc).2.2.1) empty]
    exact clean

/-- The segments of a path that is continued. -/
theorem continuePath_clean (file : Bool) (h : p.Shaped special) (text : List Char) :
    Clean special (p.read file ((Text.fields (fun c => c == '/' || (special && c == '\\')) text).map
      (percentEncode inPathSet))).1 := by
  refine h.read fun segment mem => ?_
  obtain ⟨field, hf, rfl⟩ := List.mem_map.mp mem
  refine segmentText_percentEncode fun c hc => ?_
  have stays := (Text.of_mem_fields hf hc).2
  simp only [Bool.or_eq_false_iff, Bool.and_eq_false_imp, beq_eq_false_iff_ne] at stays
  exact stays

theorem continuePath_shaped (file : Bool) (h : p.Shaped special) (text : List Char) :
    PathText special (continuePath special file p text).1 :=
  pathText_shaped (continuePath_clean file h text)

theorem PathText.clean_segments {path : List Char} (h : PathText special path ∨ path = []) :
    Clean special (pathSegments path) := by
  rcases h with h | rfl
  · exact h.clean
  · exact fun _ h => absurd h List.not_mem_nil

/-- The directory of a path can be read on. -/
theorem PathText.directory {path : List Char} (h : PathText special path ∨ path = []) :
    (directory file path).Shaped special := by
  have clean := clean_segments h
  rw [Url.directory]
  split
  · exact OpenPath.Shaped.empty
  · next last closed eq =>
    have all : Clean special (last :: closed) := fun segment mem =>
      clean segment (List.mem_reverse.mp (eq ▸ mem))
    have closedClean : Clean special closed := fun segment mem =>
      all segment (List.mem_cons_of_mem _ mem)
    obtain ⟨text, undotted⟩ := all last List.mem_cons_self
    split_ifs with drive none
    · exact ⟨Clean.cons text undotted fun _ h => absurd h List.not_mem_nil, segmentText_nil,
        .inl rfl⟩
    · refine ⟨closedClean, text, .inr ?_⟩
      simp only [isNormalDriveLetter, Bool.and_eq_true] at drive
      exact drive.2.1
    · exact ⟨closedClean, segmentText_nil, .inl rfl⟩

/-! ### Authorities -/

/-- A user name or a password in its written form. -/
def UserinfoText (s : List Char) : Prop :=
  ∀ c ∈ s, inUserinfoSet c = false ∧ c.toNat ≤ 0x7f

/-- A host in its written form: a name, or an address in brackets. -/
inductive HostText : List Char → Prop
  | name {s : List Char} (plain : ∀ c ∈ s, c ∉ ['/', '?', '#', ':', '@', '[']) : HostText s
  | bracketed {s : List Char} (plain : ∀ c ∈ s, c ∉ ['/', '?', '#', '@', ']']) :
    HostText ('[' :: s ++ [']'])

theorem userinfoText_percentEncode : UserinfoText (percentEncode inUserinfoSet s) :=
  percentEncode_kept rfl (by decide)

theorem hostText_nil : HostText [] :=
  .name fun _ h => absurd h List.not_mem_nil

theorem hostText_empty : HostText "".toList :=
  hostText_nil

theorem HostText.of_mem (h : HostText s) (hc : c ∈ s) : c ∉ ['/', '?', '#', '@'] := by
  cases h with
  | name plain =>
    have := plain c hc
    simp_all
  | bracketed plain =>
    rcases List.mem_cons.mp hc with rfl | hc
    · decide
    · rcases List.mem_append.mp hc with hc | hc
      · have := plain c hc
        simp_all
      · obtain rfl := List.mem_singleton.mp hc
        decide

/-- A host ends in one way only before the colon of a port. -/
theorem HostText.append_inj {t r r' : List Char} (hs : HostText s) (ht : HostText t)
    (hr : ∀ c ∈ r.head?, c = ':') (hr' : ∀ c ∈ r'.head?, c = ':') (h : s ++ r = t ++ r') :
    s = t ∧ r = r' := by
  -- a name does not begin with a bracket, and what follows it neither
  have mixed {s t r r' : List Char} (plain : ∀ c ∈ s, c ∉ ['/', '?', '#', ':', '@', '['])
      (hr : ∀ c ∈ r.head?, c = ':') (h : s ++ r = '[' :: t ++ r') : False := by
    cases s with
    | nil =>
      have first : r = '[' :: (t ++ r') := h
      exact absurd (hr '[' (by simp [first])) (by decide)
    | cons c s =>
      obtain rfl := (List.cons.inj h).1
      exact plain '[' List.mem_cons_self (by decide)
  cases hs with
  | name plain =>
    cases ht with
    | name plain' =>
      refine append_inj_of_stops (p := (· = ':')) (fun c hc eq => ?_) (fun c hc eq => ?_) hr hr' h
      · exact plain c hc (by simp [eq])
      · exact plain' c hc (by simp [eq])
    | bracketed plain' => exact (mixed plain hr h).elim
  | bracketed plain =>
    cases ht with
    | name plain' => exact (mixed plain' hr' h.symm).elim
    | bracketed plain' =>
      simp only [List.cons_append, List.append_assoc, List.nil_append, List.cons.injEq,
        true_and] at h
      obtain ⟨rfl, rest⟩ := append_inj_of_stops (p := (· = ']'))
        (fun c hc eq => plain c hc (by simp [eq])) (fun c hc eq => plain' c hc (by simp [eq]))
        (by simp) (by simp) h
      exact ⟨rfl, (List.cons.inj rest).2⟩

namespace Host

/-- A digit is none of the characters that end a host. -/
private theorem isDigit_of_stop : ∀ c ∈ ['/', '?', '#', ':', '@', '['], (!c.isDigit) = true :=
  List.all_eq_true.mp (by decide)

theorem of_mem_hexDigits {n : Nat} (h : c ∈ hexDigits n) : ∃ m < 16, c = Nat.digitChar m := by
  rw [hexDigits] at h
  induction n using Nat.strongRecOn with
  | ind n ih =>
    rw [Nat.toDigits_eq_if (by decide)] at h
    split_ifs at h with small
    · exact ⟨n, small, List.mem_singleton.mp h⟩
    · rcases List.mem_append.mp h with h | h
      · exact ih _ (by omega) h
      · exact ⟨n % 16, by omega, List.mem_singleton.mp h⟩

theorem of_mem_ipv6Text {pieces : List Nat} (h : c ∈ ipv6Text pieces) :
    c = ':' ∨ ∃ m < 16, c = Nat.digitChar m := by
  have colons (ps : List Nat) (h : c ∈ Text.join [':'] (ps.map hexDigits)) :
      c = ':' ∨ ∃ m < 16, c = Nat.digitChar m := by
    rcases Text.mem_join h with h | ⟨piece, mem, h⟩
    · exact .inl (List.mem_singleton.mp h)
    · obtain ⟨n, -, rfl⟩ := List.mem_map.mp mem
      exact .inr (of_mem_hexDigits h)
  rw [ipv6Text] at h
  dsimp only at h
  split_ifs at h
  · exact colons _ h
  · rcases List.mem_append.mp h with h | h
    · rcases List.mem_append.mp h with h | h
      · exact colons _ h
      · exact .inl (by simpa using h)
    · exact colons _ h

theorem of_mem_ipv4Text {value : Nat} (h : c ∈ ipv4Text value) : c = '.' ∨ c.isDigit = true := by
  rw [ipv4Text] at h
  rcases Text.mem_join h with h | ⟨piece, mem, h⟩
  · exact .inl (List.mem_singleton.mp h)
  · obtain ⟨n, -, rfl⟩ := List.mem_map.mp mem
    rw [Nat.toString_eq_ofList_toDigits, String.toList_ofList] at h
    exact .inr (Nat.isDigit_of_mem_toDigits (by decide) (by decide) h)

private theorem hostText_of_bracketed {host : List Char} (h : bracketed s = .ok host) :
    HostText host := by
  rw [bracketed] at h
  split_ifs at h
  split at h
  · cases h
    have digit : ∀ m < 16, Nat.digitChar m ∉ ['/', '?', '#', '@', ']'] := by decide
    refine .bracketed fun c hc => ?_
    rcases of_mem_ipv6Text hc with rfl | ⟨m, small, rfl⟩
    · decide
    · exact digit m small
  · cases h

theorem hostText_of_parse {host : List Char} (h : parse s = .ok host) : HostText host := by
  have stops : ∀ c ∈ ['/', '?', '#', ':', '@', '['], forbiddenInDomain c = true :=
    List.all_eq_true.mp (by decide)
  unfold parse at h
  split at h
  · exact hostText_of_bracketed h
  · dsimp only at h
    split_ifs at h with forbidden
    · split at h
      · cases h
        refine .name fun c hc stop => ?_
        rcases of_mem_ipv4Text hc with rfl | digit
        · exact absurd stop (by decide)
        · exact absurd digit (by simpa using isDigit_of_stop c stop)
      · cases h
    · cases h
      exact .name fun c hc stop => forbidden (List.any_eq_true.mpr ⟨c, hc, stops c stop⟩)

theorem hostText_of_parseOpaque {host : List Char} (h : parseOpaque s = .ok host) :
    HostText host := by
  have stops : ∀ c ∈ ['/', '?', '#', ':', '@', '['], forbiddenInOpaque c = true :=
    List.all_eq_true.mp (by decide)
  unfold parseOpaque at h
  split at h
  · exact hostText_of_bracketed h
  · split_ifs at h with forbidden
    cases h
    have digit : ∀ n < 16, hexDigitFrom 65 n ∉ ['/', '?', '#', ':', '@', '['] := by decide
    exact .name (percentEncode_all (by decide) digit fun c hc _ _ stop =>
      forbidden (List.any_eq_true.mpr ⟨c, hc, stops c stop⟩))

end Host

end Url

open Url

/-- An authority whose parts can be told apart in its written form. -/
structure Authority.Shaped (a : Authority) : Prop where
  username : UserinfoText a.username.toList
  password : UserinfoText a.password.toList
  host : HostText a.host.toList

namespace Authority

variable {a b : Authority}

/-- The user name and the password, with a colon between them. -/
private def userinfo (a : Authority) : List Char :=
  a.username.toList ++ if a.password.isEmpty then [] else ':' :: a.password.toList

/-- The host and the port, with a colon between them. -/
private def location (a : Authority) : List Char :=
  a.host.toList ++ match a.port with
    | some n => ':' :: (toString n).toList
    | none => []

private theorem toList_text (a : Authority) : a.text.toList =
    if a.username.isEmpty && a.password.isEmpty then a.location
    else a.userinfo ++ '@' :: a.location := by
  obtain ⟨username, password, host, port⟩ := a
  by_cases user : username.isEmpty <;> by_cases pass : password.isEmpty <;> cases port <;>
    simp [text, userinfo, location, user, pass]

private theorem of_mem_port {n : Nat} {c : Char} (h : c ∈ ':' :: (toString n).toList) :
    c ∉ ['/', '?', '#', '@'] := by
  rcases List.mem_cons.mp h with rfl | h
  · decide
  · rw [Nat.toString_eq_ofList_toDigits, String.toList_ofList] at h
    have digit := Nat.isDigit_of_mem_toDigits (by decide) (by decide) h
    have stops : ∀ c ∈ ['/', '?', '#', '@'], (!c.isDigit) = true :=
      List.all_eq_true.mp (by decide)
    exact fun stop => absurd digit (by simpa using stops c stop)

namespace Shaped

private theorem of_mem_location (ha : a.Shaped) {c : Char} (h : c ∈ a.location) :
    c ∉ ['/', '?', '#', '@'] := by
  rw [location] at h
  rcases List.mem_append.mp h with h | h
  · exact ha.host.of_mem h
  · split at h
    · exact of_mem_port h
    · exact absurd h List.not_mem_nil

private theorem of_mem_userinfo (ha : a.Shaped) {c : Char} (h : c ∈ a.userinfo) :
    c ∉ ['/', '?', '#', '@'] := by
  have stops : ∀ c ∈ ['/', '?', '#', '@'], inUserinfoSet c = true :=
    List.all_eq_true.mp (by decide)
  intro stop
  rw [userinfo] at h
  rcases List.mem_append.mp h with h | h
  · simpa [stops c stop] using ha.username c h
  · split_ifs at h
    · exact absurd h List.not_mem_nil
    · rcases List.mem_cons.mp h with rfl | h
      · revert stop
        decide
      · simpa [stops c stop] using ha.password c h

/-- The written form of an authority ends where the path, the query or the fragment begins. -/
theorem of_mem_text (ha : a.Shaped) {c : Char} (h : c ∈ a.text.toList) :
    c ∉ ['/', '?', '#'] := by
  rw [toList_text] at h
  split_ifs at h
  · have := ha.of_mem_location h
    simp_all
  · rcases List.mem_append.mp h with h | h
    · have := ha.of_mem_userinfo h
      simp_all
    · rcases List.mem_cons.mp h with rfl | h
      · decide
      · have := ha.of_mem_location h
        simp_all

private theorem location_inj (ha : a.Shaped) (hb : b.Shaped) (h : a.location = b.location) :
    a.host = b.host ∧ a.port = b.port := by
  have colon (port : Option Nat) : ∀ c ∈ (match port with
      | some n => ':' :: (toString n).toList
      | none => []).head?, c = ':' := by
    cases port <;> simp
  obtain ⟨host, port⟩ := HostText.append_inj ha.host hb.host (colon a.port) (colon b.port) h
  refine ⟨String.toList_injective host, ?_⟩
  cases hp : a.port <;> cases hq : b.port <;> simp only [hp, hq] at port
  · rfl
  · exact absurd port.symm (List.cons_ne_nil _ _)
  · exact absurd port (List.cons_ne_nil _ _)
  · have digits := (List.cons.inj port).2
    simp only [Nat.toString_eq_ofList_toDigits, String.toList_ofList] at digits
    simpa only [Nat.ofDigitChars_ten_toDigits, Option.some.injEq]
      using congrArg (Nat.ofDigitChars 10 · 0) digits

private theorem userinfo_inj (ha : a.Shaped) (hb : b.Shaped) (h : a.userinfo = b.userinfo) :
    a.username = b.username ∧ a.password = b.password := by
  have colon (s : String) : ∀ c ∈ (if s.isEmpty then [] else ':' :: s.toList).head?, c = ':' := by
    cases s.isEmpty <;> simp
  obtain ⟨username, password⟩ := append_inj_of_stops (p := (· = ':'))
    (fun c hc eq => by simpa [eq, inUserinfoSet] using ha.username c hc)
    (fun c hc eq => by simpa [eq, inUserinfoSet] using hb.username c hc)
    (colon a.password) (colon b.password) h
  refine ⟨String.toList_injective username, ?_⟩
  split_ifs at password with ea eb eb
  · simp_all
  · exact String.toList_injective (List.cons.inj password).2

/-- No at sign stands behind that of the credentials. -/
private theorem location_ne (ha : a.Shaped) (front back : List Char) :
    a.location ≠ front ++ '@' :: back := by
  intro eq
  exact ha.of_mem_location (c := '@') (by simp [eq]) (by decide)

/-- An authority can be told from its written form. -/
theorem text_inj (ha : a.Shaped) (hb : b.Shaped) (h : a.text = b.text) : a = b := by
  have same := congrArg String.toList h
  rw [toList_text, toList_text] at same
  have credentials : (a.username = b.username ∧ a.password = b.password) ∧
      a.location = b.location := by
    split_ifs at same with ea eb eb
    · simp_all
    · exact absurd same (ha.location_ne _ _)
    · exact absurd same.symm (hb.location_ne _ _)
    · obtain ⟨front, back⟩ := append_inj_of_stops (p := (· = '@'))
        (fun c hc eq => ha.of_mem_userinfo hc (by simp [eq]))
        (fun c hc eq => hb.of_mem_userinfo hc (by simp [eq])) (by simp) (by simp) same
      exact ⟨ha.userinfo_inj hb front, (List.cons.inj back).2⟩
  obtain ⟨⟨username, password⟩, location⟩ := credentials
  obtain ⟨host, port⟩ := ha.location_inj hb location
  cases a
  cases b
  simp_all

end Shaped

end Authority

end ModuleSystem
