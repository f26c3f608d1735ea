import ModuleSystem.Proofs.Url.Shape

/-!
# URLs that are read

What is read as a URL, alone or against another URL, can be taken apart again: its written form
tells where the scheme and the authority end, what the path is, and what stands behind it.

## Main definitions

* `Url.IsRead` : the URLs that are read, alone or against another such URL.
* `Url.Shaped` : a URL whose parts can be told apart in its written form.

## Main results

* `Url.IsRead.shaped` : every URL that is read is shaped.
-/

namespace ModuleSystem.Url

/-- The URLs that are read, alone or against another such URL. -/
inductive IsRead : Url → Prop
  | parse {s : String} {u : Url} (read : Url.parse s = .ok u) : IsRead u
  | join {b u : Url} {s : String} (base : IsRead b) (read : b.join s = .ok u) : IsRead u

/-- A path as it stands in a URL. It begins with a slash, and is marked where it could be taken for
an authority; or it is empty behind an authority; or it is opaque. -/
inductive HasPath (special : Bool) (authority : Option Authority) (marked : Bool) :
    List Char → Prop
  | rooted {path : List Char} (text : PathText special path)
    (mark : marked = (authority.isNone && ['/', '/'].isPrefixOf path)) :
    HasPath special authority marked path
  | bare (here : authority.isSome) (mark : marked = false) : HasPath special authority marked []
  | loose {path : List Char} (alone : authority = none) (mark : marked = false)
    (ends : ∀ c ∈ path, endsPath c = false) (flat : path.head? ≠ some '/') :
    HasPath special authority marked path

/-- What stands before the path of a URL can be told apart in its written form. -/
structure Headed (u : Url) : Prop where
  scheme : ':' ∉ u.scheme.toList
  authority : ∀ a ∈ u.authority, a.Shaped
  special : isSpecialScheme u.scheme → u.authority.isSome

/-- Behind an authority it does not matter which. -/
theorem HasPath.of_authority {special marked : Bool} {a b : Authority} {path : List Char}
    (h : HasPath special (some a) marked path) : HasPath special (some b) marked path := by
  cases h with
  | rooted text mark => exact .rooted text mark
  | bare _ mark => exact .bare rfl mark
  | loose alone => cases alone

/-- The parts of a URL can be told apart in its written form. -/
structure Shaped (u : Url) : Prop extends Headed u where
  path : HasPath (isSpecialScheme u.scheme) u.authority u.marked u.path.toList

variable {u b : Url} {p : OpenPath} {s : List Char} {scheme : String}

/-! ### Paths -/

theorem Shaped.withTail (h : u.Shaped) (s : List Char) : (withTail u s).Shaped :=
  ⟨⟨h.scheme, h.authority, h.special⟩, h.path⟩

theorem Shaped.withFragment (h : u.Shaped) (fragment : Option String) :
    Shaped { u with fragment } :=
  ⟨⟨h.scheme, h.authority, h.special⟩, h.path⟩

theorem Headed.withRest (h : u.Headed) (hp : p.Shaped (isSpecialScheme u.scheme)) (s : List Char) :
    (withRest u p s).Shaped where
  scheme := h.scheme
  authority := h.authority
  special := h.special
  path := by
    have text := continuePath_shaped (u.scheme == "file") hp (cutPath s).1
    refine .rooted ?_ ?_
    · simpa [Url.withRest, Url.withTail] using text
    · simp [Url.withRest, Url.withTail]

/-- The path of a URL that is not opaque begins with a slash, if it is not empty. -/
theorem Shaped.pathText (h : u.Shaped) (hierarchical : u.isOpaque = false) :
    PathText (isSpecialScheme u.scheme) u.path.toList ∨ u.path.toList = [] := by
  cases path : u.path.toList with
  | nil => exact .inr rfl
  | cons c rest =>
    have path' := path ▸ h.path
    cases path' with
    | rooted text => exact .inl text
    | loose alone mark ends flat =>
      have slash : Text.isPrefix "/" u.path = false := by
        rw [Text.isPrefix, path]
        have first : ('/' == c) = false := by
          simpa using fun same : '/' = c => flat (by rw [← same]; rfl)
        simp [List.isPrefixOf, first]
      simp [isOpaque, alone, mark, slash] at hierarchical

/-- A URL of a special scheme is not opaque. -/
theorem Headed.hierarchical (h : u.Headed) (special : isSpecialScheme u.scheme) :
    u.isOpaque = false := by
  obtain ⟨a, ha⟩ := Option.isSome_iff_exists.mp (h.special special)
  simp [isOpaque, ha]

theorem Headed.host (h : u.Headed) : HostText u.host.toList := by
  cases ha : u.authority with
  | none => simpa [Url.host, ha] using hostText_nil
  | some a => simpa [Url.host, ha] using (h.authority a ha).host

/-! ### Schemes and authorities -/

theorem readScheme_shaped {rest : List Char} (h : readScheme? s = some (scheme, rest)) :
    ':' ∉ scheme.toList := by
  rw [readScheme?] at h
  split at h
  · next first others _ taken _ =>
    split_ifs at h
    cases h
    intro mem
    rw [String.toList_ofList] at mem
    obtain ⟨c, mem, colon⟩ := List.mem_map.mp mem
    refine toLower_ne ?_ (by decide) colon
    rintro rfl
    have all := List.all_takeWhile (p := fun c : Char =>
      c.isAlphanum || c == '+' || c == '-' || c == '.') (l := s)
    rw [taken] at all
    exact absurd (List.all_eq_true.mp all ':' mem) (by decide)
  · cases h

theorem headed_of_authority {a : Authority} (path : String) (hs : ':' ∉ scheme.toList)
    (ha : a.Shaped) : Headed { scheme, authority := some a, path } :=
  ⟨hs, fun _ h => Option.mem_some_iff.mp h ▸ ha, fun _ => rfl⟩

theorem authority_shaped_of_host {host : String} (h : HostText host.toList) :
    Authority.Shaped { host } where
  username := fun _ h => absurd h List.not_mem_nil
  password := fun _ h => absurd h List.not_mem_nil
  host := h

theorem readCredentials_shaped {special : Bool} {username password : String} {rest : List Char}
    (h : readCredentials special s = .ok (username, password, rest)) :
    UserinfoText username.toList ∧ UserinfoText password.toList := by
  rw [readCredentials] at h
  dsimp only at h
  split_ifs at h
  · cases h
    exact ⟨fun _ h => absurd h List.not_mem_nil, fun _ h => absurd h List.not_mem_nil⟩
  · cases h
    constructor <;> simpa using userinfoText_percentEncode

section Except

variable {ε α β : Type} {x : Except ε α} {f : α → Except ε β} {b : β}

theorem exists_of_bind_eq_ok (h : x >>= f = .ok b) : ∃ a, x = .ok a ∧ f a = .ok b := by
  cases x with
  | error e => cases h
  | ok a => exact ⟨a, rfl, h⟩

/-- What has not been refused goes on. -/
theorem ok_of_guard {refused : Prop} [Decidable refused] {e : ε} {rest : Except ε β}
    (h : (if refused then (throw e : Except ε α) >>= f else rest) = .ok b) : rest = .ok b := by
  split at h
  · cases h
  · exact h

end Except

theorem exists_host_of_read {special : Bool} {f : List Char → Except UrlError Url}
    (h : (if special then Host.parse s >>= f else Host.parseOpaque s >>= f) = .ok u) :
    ∃ host, (if special then Host.parse s else Host.parseOpaque s) = .ok host ∧ f host = .ok u := by
  split_ifs at h ⊢
  · exact exists_of_bind_eq_ok h
  · exact exists_of_bind_eq_ok h

theorem hostText_of_read {special : Bool} {host : List Char}
    (h : (if special then Host.parse s else Host.parseOpaque s) = .ok host) : HostText host := by
  split at h
  · exact Host.hostText_of_parse h
  · exact Host.hostText_of_parseOpaque h

theorem exists_of_readPort {f : Option Nat × List Char → Except UrlError Url}
    (h : (match s with
      | ':' :: portText => readPort scheme portText >>= f
      | _ => pure (none, s) >>= f) = .ok u) : ∃ port rest, f (port, rest) = .ok u := by
  split at h <;> obtain ⟨⟨port, rest⟩, -, h⟩ := exists_of_bind_eq_ok h <;> exact ⟨port, rest, h⟩

/-- What follows the authority is a path, or a query or fragment where the scheme needs no path. -/
private theorem shaped_behind {a : Authority} (hs : ':' ∉ scheme.toList) (ha : a.Shaped)
    (h : (match s with
      | [] => .ok (if isSpecialScheme scheme then withRest ⟨scheme, some a, false, "", none, none⟩ {} []
          else ⟨scheme, some a, false, "", none, none⟩)
      | c :: behind =>
        if c == '/' || (isSpecialScheme scheme && c == '\\') then
          .ok (withRest ⟨scheme, some a, false, "", none, none⟩ {} behind)
        else if endsPath c && !isSpecialScheme scheme then
          .ok (withTail ⟨scheme, some a, false, "", none, none⟩ s)
        else .ok (withRest ⟨scheme, some a, false, "", none, none⟩ {} s) : Except UrlError Url) =
      .ok u) : u.Shaped := by
  have headed := headed_of_authority "" hs ha
  have bare : Shaped ⟨scheme, some a, false, "", none, none⟩ := ⟨headed, .bare rfl rfl⟩
  have rest (s : List Char) := headed.withRest OpenPath.Shaped.empty s
  split at h
  · split at h <;> cases h
    · exact rest []
    · exact bare
  · split_ifs at h <;> cases h
    · exact rest _
    · exact bare.withTail _
    · exact rest _

theorem readAuthority_shaped (hs : ':' ∉ scheme.toList) (h : readAuthority scheme s = .ok u) :
    u.Shaped := by
  rw [readAuthority] at h
  obtain ⟨⟨username, password, rest⟩, credentials, h⟩ := exists_of_bind_eq_ok h
  obtain ⟨user, pass⟩ := readCredentials_shaped credentials
  obtain ⟨host, named, h⟩ := exists_host_of_read (ok_of_guard h)
  have shaped (port : Option Nat) : Authority.Shaped ⟨username, password, String.ofList host, port⟩ :=
    ⟨user, pass, by simpa using hostText_of_read named⟩
  obtain ⟨port, rest, h⟩ := exists_of_readPort (ok_of_guard h)
  exact shaped_behind hs (shaped port) (ok_of_guard h)

theorem headed_file {host : String} (h : HostText host.toList) (path : String) :
    Headed { scheme := "file", authority := some { host }, path } :=
  headed_of_authority path (by decide) (authority_shaped_of_host h)

/-- Behind a drive letter the host is dropped. -/
private theorem shaped_of_drive {host : String} (h : HostText host.toList) (drive : Bool)
    (s : List Char) :
    Shaped (if drive then
      { withRest { scheme := "file", authority := some { host }, path := "" } {} s with
        authority := some {} }
      else withRest { scheme := "file", authority := some { host }, path := "" } {} s) := by
  have shaped := (headed_file h "").withRest .empty s
  split
  · exact ⟨⟨shaped.scheme, (headed_file hostText_empty "").authority, fun _ => rfl⟩,
      shaped.path.of_authority⟩
  · exact shaped

theorem readFileHost_shaped (h : readFileHost s = .ok u) : u.Shaped := by
  have rest (s : List Char) :=
    (headed_file hostText_empty "").withRest OpenPath.Shaped.empty s
  rw [readFileHost] at h
  dsimp only at h
  split at h
  · cases h
    exact rest s
  · obtain ⟨host, named, h⟩ := exists_of_bind_eq_ok h
    split at h
    · cases h
      exact rest _
    · cases h
      exact shaped_of_drive (by simpa using Host.hostText_of_parse named) _ _

theorem readFile_shaped {base : Option Url} (hb : ∀ b ∈ base, b.Shaped ∧ b.scheme = "file")
    (h : readFile base s = .ok u) : u.Shaped := by
  have root {p : OpenPath} (hp : p.Shaped true) (s : List Char) :=
    (headed_file hostText_empty "/").withRest hp s
  have fromRoot (s : List Char) :
      (readFile.fromRoot base { scheme := "file", authority := some {}, path := "/" } s).Shaped := by
    unfold readFile.fromRoot
    split
    · exact root .empty _
    · next b =>
      obtain ⟨hb, file⟩ := hb b rfl
      have special : isSpecialScheme b.scheme = true := file ▸ rfl
      split
      · exact root .empty _
      · dsimp only
        split
        · next drive =>
          refine root ⟨?_, segmentText_nil, .inl rfl⟩ _
          have clean := PathText.clean_segments (hb.pathText (hb.hierarchical special))
          rw [special] at clean
          cases segments : pathSegments b.path.toList with
          | nil => simp [segments, isNormalDriveLetter, isDriveLetter] at drive
          | cons first others =>
            rw [segments] at clean
            exact fun segment mem => clean segment (by simp_all)
        · exact (headed_file hb.host "/").withRest .empty _
  unfold readFile at h
  dsimp only at h
  split at h
  · split at h
    · split at h
      · split at h
        · exact readFileHost_shaped h
        · cases h
          exact fromRoot _
      · cases h
        exact fromRoot _
    · split at h
      · cases h
        exact root .empty _
      · next b =>
        obtain ⟨hb, file⟩ := hb b rfl
        split_ifs at h <;> cases h
        · exact hb.withTail _
        · exact hb.withFragment _
        · exact root .empty _
        · have special : isSpecialScheme b.scheme := file ▸ rfl
          have paths := hb.pathText (hb.hierarchical special)
          exact hb.toHeaded.withRest (PathText.directory paths) _
  · split at h
    · cases h
      exact root .empty _
    · next b =>
      cases h
      exact (hb b rfl).1.withFragment none

theorem readRelative_shaped (hb : b.Shaped) (hierarchical : b.isOpaque = false)
    (h : readRelative b s = .ok u) : u.Shaped := by
  have rest (s : List Char) := hb.toHeaded.withRest OpenPath.Shaped.empty s
  unfold readRelative at h
  split at h
  · cases h
    exact hb.withFragment none
  · split_ifs at h
    · cases h
      exact hb.withTail _
    · cases h
      exact hb.withFragment _
    · split at h
      · split_ifs at h
        · exact readAuthority_shaped hb.scheme h
        · exact readAuthority_shaped hb.scheme h
        · cases h
          exact rest _
      · cases h
        exact rest _
    · cases h
      exact hb.toHeaded.withRest (PathText.directory (hb.pathText hierarchical)) _

theorem readOther_shaped (hs : ':' ∉ scheme.toList) (other : isSpecialScheme scheme = false)
    (h : readOther scheme s = .ok u) : u.Shaped := by
  have headed {path : String} : Headed { scheme, path } :=
    ⟨hs, fun _ h => absurd h (by simp), fun special => by simp [other] at special⟩
  unfold readOther at h
  split at h
  · exact readAuthority_shaped hs h
  · cases h
    exact headed.withRest OpenPath.Shaped.empty _
  · next none some =>
    cases h
    refine Shaped.withTail ⟨headed, .loose rfl rfl ?_ ?_⟩ _
    · rw [String.toList_ofList]
      refine percentEncode_all rfl (by decide) fun c hc _ _ => ?_
      have all := List.all_takeWhile (p := fun c => !endsPath c) (l := s)
      simpa using List.all_eq_true.mp all c hc
    · rw [String.toList_ofList]
      refine percentEncode_head? (fun first => ?_) (by decide)
      cases s with
      | nil => cases first
      | cons c rest =>
        obtain ⟨-, rfl⟩ : _ ∧ c = '/' := by
          simpa [cutPath, List.takeWhile_cons, apply_ite] using first
        exact some rest rfl

theorem read_shaped {base : Option Url} (hb : ∀ b ∈ base, b.Shaped) (h : read base s = .ok u) :
    u.Shaped := by
  unfold read at h
  split at h
  · next scheme rest found =>
    have hs := readScheme_shaped found
    split_ifs at h with file special
    · refine readFile_shaped (fun b mem => ?_) h
      obtain ⟨mem, same⟩ := Option.filter_eq_some_iff.mp mem
      exact ⟨hb b mem, by simpa using same⟩
    · split at h
      · next b =>
        split_ifs at h with near
        · obtain ⟨same, -⟩ := Bool.and_eq_true_iff.mp near
          obtain rfl : b.scheme = scheme := by simpa using same
          have hb := hb b rfl
          exact readRelative_shaped hb (hb.hierarchical special) h
        · exact readAuthority_shaped hs h
      · exact readAuthority_shaped hs h
    · exact readOther_shaped hs (by simpa using special) h
  · split at h
    · cases h
    · next b =>
      have hb := hb b rfl
      split_ifs at h with fragment loose file
      · cases h
        exact hb.withFragment _
      · exact readFile_shaped (by simpa using ⟨hb, by simpa using file⟩) h
      · exact readRelative_shaped hb (by simpa using loose) h

/-- Every URL that is read is shaped. -/
theorem IsRead.shaped (h : u.IsRead) : u.Shaped := by
  induction h with
  | parse read => exact read_shaped (by simp) read
  | join _ read base => exact read_shaped (by simpa using base) read

end ModuleSystem.Url
