import ModuleSystem.Proofs.Url.Reading

/-!
# URLs whose written form begins that of others

The written form of a URL begins that of another one if the other one has the same scheme and
authority and its path continues the path of the first. The converse holds as well, unless the first
URL is open-ended: what is put behind its written form can then become an authority or a part of
one.

## Main definitions

* `Url.IsOpenEnded` : the written form of the URL ends where an authority can begin or go on.

## Main results

* `Url.Shaped.within` : a URL whose written form continues that of one that is not open-ended has
  the same scheme and authority, and its path continues that of the other.
-/

namespace ModuleSystem.Url

/-- Without query and fragment, the written form of the URL ends with its authority, with the colon
of its scheme, or with a single slash behind that. -/
def IsOpenEnded (u : Url) : Prop :=
  u.query = none ∧ u.fragment = none ∧
    (u.path = "" ∨ u.path = "/" ∧ u.authority = none ∧ u.marked = false)

variable {a u : Url} {path after text : List Char} {special : Bool}

/-! ### Parts of the written form -/

/-- What stands behind a path begins with a character that ends one. -/
theorem afterPath_head? (u : Url) : ∀ c ∈ u.afterPath.toList.head?, endsPath c := by
  obtain ⟨scheme, authority, marked, path, query, fragment⟩ := u
  cases query <;> cases fragment <;> simp [afterPath, endsPath]

theorem afterPath_eq_nil (h : u.afterPath.toList = []) : u.query = none ∧ u.fragment = none := by
  obtain ⟨scheme, authority, marked, path, query, fragment⟩ := u
  cases query <;> cases fragment <;> simp [afterPath] at h ⊢

/-- What begins a path and what stands behind it begins the path, unless it has a character that
ends a path. -/
theorem prefix_of_prefix_append (plain : ∀ c ∈ text, endsPath c = false)
    (ends : ∀ c ∈ after.head?, endsPath c) (h : text <+: path ++ after) : text <+: path := by
  rcases List.prefix_or_prefix_of_prefix h (List.prefix_append path after) with h' | ⟨rest, rfl⟩
  · exact h'
  · obtain ⟨more, same⟩ := h
    rw [List.append_assoc, List.append_cancel_left_eq] at same
    cases rest with
    | nil => simp
    | cons c rest =>
      have here := ends c (by rw [← same]; rfl)
      have := plain c (by simp)
      simp [here] at this

theorem PathText.exists_rest (h : PathText special path) :
    ∃ rest, path = '/' :: rest ∧ Clean special (Text.fields (· == '/') rest) := by
  obtain ⟨rooted, clean⟩ := h
  cases path with
  | nil => cases rooted
  | cons c rest =>
    cases rooted
    exact ⟨rest, rfl, clean⟩

/-- What ends a path is escaped in it. -/
theorem inPathSet_of_endsPath {c : Char} (h : endsPath c) : inPathSet c := by
  obtain rfl | rfl : c = '?' ∨ c = '#' := by simpa [endsPath] using h
  · decide
  · decide

theorem PathText.plain (h : PathText special path) : ∀ c ∈ path, endsPath c = false := by
  obtain ⟨rest, rfl, clean⟩ := h.exists_rest
  intro c hc
  rcases List.mem_cons.mp hc with rfl | hc
  · rfl
  · rcases Text.exists_mem_fields (· == '/') hc with slash | ⟨segment, mem, here⟩
    · obtain rfl := beq_iff_eq.mp slash
      rfl
    · have kept := ((clean segment mem).1 c here).1
      by_contra ends
      rw [inPathSet_of_endsPath (by simpa using ends)] at kept
      cases kept

/-- No path begins with a segment that is a dot. -/
theorem PathText.not_dot (h : PathText special path) :
    path ≠ ['/', '.'] ∧ ¬ ['/', '.', '/'] <+: path := by
  obtain ⟨rest, rfl, clean⟩ := h.exists_rest
  constructor
  · intro dot
    obtain rfl := (List.cons.inj dot).2
    exact absurd (clean ['.'] (by decide)).2.1 (by decide)
  · rintro ⟨more, dot⟩
    obtain rfl : rest = ['.'] ++ '/' :: more := (List.cons.inj dot).2.symm
    rw [Text.fields_append (by simp) rfl] at clean
    exact absurd (clean ['.'] List.mem_cons_self).2.1 (by decide)

/-- What stands behind the scheme and its colon. -/
def body (u : Url) : List Char :=
  (match u.authority with
    | some a => '/' :: '/' :: a.text.toList
    | none => []) ++ (if u.marked then ['/', '.'] else []) ++ (u.path.toList ++ u.afterPath.toList)

theorem toList_href (u : Url) : u.href.toList = u.scheme.toList ++ ':' :: u.body := by
  obtain ⟨scheme, authority, marked, path, query, fragment⟩ := u
  cases authority <;> cases marked <;> simp [href, beforePath, body]

/-- The three ways in which a path can follow the scheme: behind an authority, behind the mark, or at
once. -/
inductive Placed (u : Url) : Prop
  | named (a : Authority) (here : u.authority = some a) (shaped : a.Shaped)
    (rooted : ∀ c ∈ u.path.toList.head?, c = '/')
    (eq : u.body = '/' :: '/' :: (a.text.toList ++ (u.path.toList ++ u.afterPath.toList)))
  | marked (alone : u.authority = none) (double : ['/', '/'] <+: u.path.toList)
    (eq : u.body = '/' :: '.' :: (u.path.toList ++ u.afterPath.toList))
  | plain (alone : u.authority = none) (unmarked : u.marked = false)
    (single : ¬ ['/', '/'] <+: u.path.toList)
    (undotted : u.path.toList ≠ ['/', '.'] ∧ ¬ ['/', '.', '/'] <+: u.path.toList)
    (eq : u.body = u.path.toList ++ u.afterPath.toList)

theorem Shaped.plain (h : u.Shaped) : ∀ c ∈ u.path.toList, endsPath c = false := by
  have path := h.path
  generalize u.path.toList = text at path
  cases path with
  | rooted text => exact text.plain
  | bare => exact fun _ h => absurd h List.not_mem_nil
  | loose _ _ ends => exact ends

theorem Shaped.placed (h : u.Shaped) : u.Placed := by
  have path := h.path
  cases here : u.authority with
  | some a =>
    have unmarked : u.marked = false ∧ ∀ c ∈ u.path.toList.head?, c = '/' := by
      rw [here] at path
      generalize u.path.toList = text at path
      cases path with
      | rooted text mark => exact ⟨mark, by simp [text.rooted, eq_comm]⟩
      | bare _ mark => exact ⟨mark, by simp⟩
      | loose alone => cases alone
    exact .named a here (h.authority a here) unmarked.2 (by simp [body, here, unmarked.1])
  | none =>
    cases mark : u.marked with
    | true =>
      refine .marked here ?_ (by simp [body, here, mark])
      rw [here, mark] at path
      generalize u.path.toList = text at path
      cases path with
      | rooted text mark => exact List.isPrefixOf_iff_prefix.mp (by simpa using mark.symm)
      | bare here => cases here
      | loose _ mark => cases mark
    | false =>
      rw [here, mark] at path
      suffices ¬ ['/', '/'] <+: u.path.toList ∧
          u.path.toList ≠ ['/', '.'] ∧ ¬ ['/', '.', '/'] <+: u.path.toList from
        .plain here mark this.1 this.2 (by simp [body, here, mark])
      generalize u.path.toList = text at path ⊢
      cases path with
      | rooted text mark =>
        exact ⟨fun double => by simp [List.isPrefixOf_iff_prefix.mpr double] at mark, text.not_dot⟩
      | bare here => cases here
      | loose _ _ _ flat =>
        refine ⟨?_, ?_, ?_⟩
        · rintro ⟨_, rfl⟩
          exact flat rfl
        · rintro rfl
          exact flat rfl
        · rintro ⟨_, rfl⟩
          exact flat rfl

/-- If no path is placed behind an authority or a mark, and the URL is not open-ended, what continues
its written form begins its path with a slash only where the path does so itself. -/
theorem prefix_path_of_not_isOpenEnded (closed : ¬ a.IsOpenEnded) (alone : a.authority = none)
    (unmarked : a.marked = false) {c : Char} (plain : endsPath c = false) {rest tail : List Char}
    (h : '/' :: c :: rest = a.path.toList ++ (a.afterPath.toList ++ tail)) :
    ∃ more, a.path.toList = '/' :: c :: more ∧ rest = more ++ (a.afterPath.toList ++ tail) := by
  have ends := a.afterPath_head?
  -- the query or the fragment begins neither with a slash nor with the character behind it
  cases path : a.path.toList with
  | nil =>
    rw [path, List.nil_append] at h
    cases after : a.afterPath.toList with
    | nil =>
      obtain ⟨query, fragment⟩ := afterPath_eq_nil after
      exact absurd ⟨query, fragment, .inl (String.toList_injective path)⟩ closed
    | cons d others =>
      rw [after] at h ends
      obtain rfl := (List.cons.inj h).1
      exact absurd (ends '/' rfl) (by decide)
  | cons d others =>
    rw [path, List.cons_append] at h
    obtain ⟨rfl, behind⟩ := List.cons.inj h
    cases others with
    | nil =>
      cases after : a.afterPath.toList with
      | nil =>
        obtain ⟨query, fragment⟩ := afterPath_eq_nil after
        exact absurd ⟨query, fragment, .inr ⟨String.toList_injective path, alone, unmarked⟩⟩ closed
      | cons d others =>
        rw [after] at behind ends
        obtain rfl := (List.cons.inj behind).1
        simp [plain] at ends
    | cons e more =>
      obtain ⟨rfl, others⟩ := List.cons.inj behind
      exact ⟨more, rfl, others⟩

/-- Behind an authority stands a character that ends it, unless nothing does. -/
private theorem head?_append_stops (rooted : ∀ c ∈ path.head?, c = '/')
    (ends : path = [] → ∀ c ∈ after.head?, endsPath c) :
    ∀ c ∈ (path ++ after).head?, c = '/' ∨ endsPath c := by
  cases path with
  | nil => exact fun c h => .inr (ends rfl c h)
  | cons d rest => exact fun c h => .inl (rooted c h)

/-- A URL whose written form continues that of one that is not open-ended has the same scheme and
authority, and its path continues that of the other. -/
theorem Shaped.within (ha : a.Shaped) (hu : u.Shaped) (closed : ¬ a.IsOpenEnded) {tail : String}
    (h : u.href = a.href ++ tail) :
    u.scheme = a.scheme ∧ u.authority = a.authority ∧ ∃ rest, u.path = a.path ++ rest := by
  obtain ⟨scheme, body⟩ : u.scheme = a.scheme ∧ u.body = a.body ++ tail.toList := by
    have text := congrArg String.toList h
    rw [String.toList_append, toList_href, toList_href, List.append_assoc] at text
    obtain ⟨scheme, body⟩ := append_inj_of_stops (p := (· = ':'))
      (fun c hc colon => hu.scheme (colon ▸ hc)) (fun c hc colon => ha.scheme (colon ▸ hc))
      (by simp) (by simp) text
    exact ⟨String.toList_injective scheme, (List.cons.inj body).2⟩
  -- the paths follow the same text
  suffices u.authority = a.authority ∧
      u.path.toList ++ u.afterPath.toList =
        a.path.toList ++ (a.afterPath.toList ++ tail.toList) by
    obtain ⟨authority, paths⟩ := this
    obtain ⟨rest, eq⟩ := prefix_of_prefix_append ha.plain u.afterPath_head? ⟨_, paths.symm⟩
    exact ⟨scheme, authority, String.ofList rest, String.toList_injective (by simp [← eq])⟩
  rcases ha.placed with ⟨x, hx, xShaped, xRooted, eq⟩ | ⟨alone, double, eq⟩ |
    ⟨alone, unmarked, single, undotted, eq⟩
  · rcases hu.placed with ⟨y, hy, yShaped, yRooted, eq'⟩ | ⟨alone', double', eq'⟩ |
      ⟨alone', unmarked', single', undotted', eq'⟩
    · rw [eq, eq'] at body
      have same : _ = _ ++ tail.toList := (List.cons.inj (List.cons.inj body).2).2
      rw [List.append_assoc, List.append_assoc] at same
      have plain {z : Authority} (hz : z.Shaped) : ∀ c ∈ z.text.toList, ¬ (c = '/' ∨ endsPath c) :=
        fun c hc stop => hz.of_mem_text hc (by simpa [endsPath] using stop)
      have behind : ∀ c ∈ (u.path.toList ++ u.afterPath.toList).head?, c = '/' ∨ endsPath c :=
        head?_append_stops yRooted fun _ => u.afterPath_head?
      have behind' : ∀ c ∈ (a.path.toList ++ (a.afterPath.toList ++ tail.toList)).head?,
          c = '/' ∨ endsPath c := by
        refine head?_append_stops xRooted fun empty => ?_
        cases after : a.afterPath.toList with
        | nil =>
          obtain ⟨query, fragment⟩ := afterPath_eq_nil after
          exact absurd ⟨query, fragment, .inl (String.toList_injective empty)⟩ closed
        | cons d others =>
          have ends := a.afterPath_head?
          rw [after] at ends
          exact ends
      obtain ⟨text, paths⟩ := append_inj_of_stops (plain yShaped) (plain xShaped) behind behind' same
      have same := yShaped.text_inj xShaped (String.toList_injective text)
      exact ⟨by rw [hx, hy, same], paths⟩
    · rw [eq, eq'] at body
      exact absurd (List.cons.inj (List.cons.inj body).2).1 (by decide)
    · rw [eq, eq'] at body
      refine absurd (prefix_of_prefix_append (by simp [endsPath]) u.afterPath_head? ?_) single'
      exact ⟨_, body.symm⟩
  · rcases hu.placed with ⟨y, hy, yShaped, yRooted, eq'⟩ | ⟨alone', double', eq'⟩ |
      ⟨alone', unmarked', single', undotted', eq'⟩
    · rw [eq, eq'] at body
      exact absurd (List.cons.inj (List.cons.inj body).2).1 (by decide)
    · rw [eq, eq'] at body
      refine ⟨alone'.trans alone.symm, ?_⟩
      simpa using body
    · obtain ⟨rest, double⟩ := double
      rw [eq, eq', ← double] at body
      refine absurd (prefix_of_prefix_append (by simp [endsPath]) u.afterPath_head? ?_) undotted'.2
      exact ⟨_, body.symm⟩
  · rcases hu.placed with ⟨y, hy, yShaped, yRooted, eq'⟩ | ⟨alone', double', eq'⟩ |
      ⟨alone', unmarked', single', undotted', eq'⟩
    · rw [eq, eq', List.append_assoc] at body
      obtain ⟨more, path, -⟩ := prefix_path_of_not_isOpenEnded closed alone unmarked rfl body
      exact absurd ⟨more, path.symm⟩ single
    · obtain ⟨rest, double⟩ := double'
      rw [eq, eq', List.append_assoc, ← double] at body
      obtain ⟨more, path, behind⟩ := prefix_path_of_not_isOpenEnded closed alone unmarked rfl body
      cases more with
      | nil => exact absurd path undotted.1
      | cons c more =>
        obtain rfl := (List.cons.inj behind).1
        exact absurd ⟨more, path.symm⟩ undotted.2
    · rw [eq, eq', List.append_assoc] at body
      exact ⟨alone'.trans alone.symm, body⟩

end ModuleSystem.Url
