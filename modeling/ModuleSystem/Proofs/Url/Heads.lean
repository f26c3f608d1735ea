import ModuleSystem.Proofs.Url.Setting

/-!
# What stands before the path of a URL

A scheme in its written form is read back from it, and the authority of a URL that has been read
holds no character that would end it earlier. What is read before a path does not depend on the
path.

## Main definitions

* `Url.PlainText` : a text without blanks and backslashes.
* `Url.IsScheme` : a scheme in its written form.
* `Url.Bare` : a text in which neither a path nor what follows one begins.

## Main results

* `Url.read_inv` : the scheme and the authority of a URL that is read without a base.
* `Url.readAuthority_append`, `Url.readFileHost_append` : the authority is read in the same way
  before any path.
-/

namespace ModuleSystem

open Url

/-- What stands in the written form of an authority. -/
theorem Authority.of_mem_text {a : Authority} {c : Char} (h : c ∈ a.text.toList) :
    c = ':' ∨ c = '@' ∨ c.isDigit ∨ c ∈ a.username.toList ∨ c ∈ a.password.toList ∨
      c ∈ a.host.toList := by
  obtain ⟨username, password, host, port⟩ := a
  have digits (n : Nat) (h : c ∈ (toString n).toList) : c.isDigit := by
    rw [Nat.toString_eq_ofList_toDigits, String.toList_ofList] at h
    exact Nat.isDigit_of_mem_toDigits (by decide) (by decide) h
  have credentials (h : c ∈ (if username.isEmpty && password.isEmpty then "" else
      username ++ (if password.isEmpty then "" else ":" ++ password) ++ "@").toList) :
      c = ':' ∨ c = '@' ∨ c ∈ username.toList ∨ c ∈ password.toList := by
    split_ifs at h
    · exact absurd h List.not_mem_nil
    · have h : c ∈ username.toList ∨ c = '@' := by simpa using h
      exact h.elim (fun h => .inr (.inr (.inl h))) fun h => .inr (.inl h)
    · have h : c ∈ username.toList ∨ c = ':' ∨ c ∈ password.toList ∨ c = '@' := by simpa using h
      rcases h with h | h | h | h
      · exact .inr (.inr (.inl h))
      · exact .inl h
      · exact .inr (.inr (.inr h))
      · exact .inr (.inl h)
  rw [text, String.toList_append, String.toList_append, List.mem_append, List.mem_append] at h
  rcases h with (h | h) | h
  · exact (credentials h).imp_right (Or.imp_right fun h => .inr (h.imp_right .inl))
  · exact .inr (.inr (.inr (.inr (.inr h))))
  · cases port with
    | none => simp at h
    | some n =>
      rw [String.toList_append, List.mem_append] at h
      rcases h with h | h
      · exact .inl (by simpa using h)
      · exact .inr (.inr (.inl (digits n h)))

namespace Url

variable {u : Url} {s t host : List Char} {c : Char} {scheme : String}

/-- A text without blanks and backslashes. -/
def PlainText (s : List Char) : Prop :=
  ∀ c ∈ s, 0x20 < c.toNat ∧ c ≠ '\\'

/-! ### Hosts -/

namespace Host

theorem plain_of_bracketed (h : bracketed s = .ok host) :
    host ≠ [] ∧ PlainText host := by
  have digit : ∀ m < 16, 0x20 < (Nat.digitChar m).toNat ∧ Nat.digitChar m ≠ '\\' := by decide
  rw [bracketed] at h
  split_ifs at h
  split at h
  · cases h
    refine ⟨List.cons_ne_nil _ _, fun c hc => ?_⟩
    simp only [List.cons_append, List.mem_cons, List.mem_append, List.not_mem_nil, or_false] at hc
    rcases hc with rfl | hc | rfl
    · decide
    · rcases of_mem_ipv6Text hc with rfl | ⟨m, small, rfl⟩
      · decide
      · exact digit m small
    · decide
  · cases h

theorem plain_of_isDigit (digit : c.isDigit) : 0x20 < c.toNat ∧ c ≠ '\\' := by
  have least : 48 ≤ c.toNat := (Char.isDigit_iff_toNat.mp digit).1
  exact ⟨by omega, fun same => by simp [same] at digit⟩

theorem plain_of_parse (h : parse s = .ok host) :
    host ≠ [] ∧ PlainText host := by
  unfold parse at h
  split at h
  · exact plain_of_bracketed h
  · dsimp only at h
    split_ifs at h with forbidden empty
    · split at h
      · cases h
        refine ⟨by simp [ipv4Text, Text.join], fun c hc => ?_⟩
        rcases of_mem_ipv4Text hc with rfl | digit
        · decide
        · exact plain_of_isDigit digit
      · cases h
    · cases h
      refine ⟨by simpa using empty, fun c hc => ?_⟩
      have allowed : forbiddenInDomain c = false :=
        Bool.eq_false_iff.mpr fun here => forbidden (List.any_eq_true.mpr ⟨c, hc, here⟩)
      refine ⟨?_, ?_⟩
      · by_contra blank
        simp [forbiddenInDomain, not_lt.mp blank] at allowed
      · rintro rfl
        cases allowed

theorem plain_of_parseOpaque (h : parseOpaque s = .ok host) : PlainText host := by
  unfold parseOpaque at h
  split at h
  · exact (plain_of_bracketed h).2
  · split_ifs at h with forbidden
    cases h
    have digit : ∀ n < 16, 0x20 < (hexDigitFrom 65 n).toNat ∧ hexDigitFrom 65 n ≠ '\\' := by decide
    refine percentEncode_all (by decide) digit fun c hc kept _ => ?_
    have allowed : forbiddenInOpaque c = false :=
      Bool.eq_false_iff.mpr fun here => forbidden (List.any_eq_true.mpr ⟨c, hc, here⟩)
    refine ⟨lt_of_le_of_ne (not_lt.mp fun low => ?_) fun blank => ?_, ?_⟩
    · simp [isControl, low] at kept
    · obtain rfl : ' ' = c := Char.toNat_inj.mp blank
      cases allowed
    · rintro rfl
      cases allowed

end Host

/-! ### Schemes -/

/-- A scheme in its written form. -/
def IsScheme (scheme : List Char) : Prop :=
  scheme.head?.any Char.isAlpha ∧
    ∀ c ∈ scheme, (c.isAlphanum || c == '+' || c == '-' || c == '.') ∧ c.isUpper = false

theorem isScheme_of_readScheme? {rest : List Char} (h : readScheme? s = some (scheme, rest)) :
    IsScheme scheme.toList := by
  rw [Url.readScheme?] at h
  split at h
  · next first others _ taken _ =>
    split_ifs at h with alpha
    cases h
    have all := List.all_takeWhile (p := fun c : Char =>
      c.isAlphanum || c == '+' || c == '-' || c == '.') (l := s)
    rw [taken] at all
    rw [String.toList_ofList]
    refine ⟨by simpa [Char.isAlpha_toLower_eq_isAlpha] using alpha, fun c hc => ?_⟩
    obtain ⟨d, mem, rfl⟩ := List.mem_map.mp hc
    refine ⟨?_, Char.isUpper_toLower_eq_false d⟩
    by_cases upper : d.isUpper
    · have alpha : d.toLower.isAlpha := by simp [Char.isAlpha, upper]
      simp [Char.isAlphanum, alpha]
    · rw [Char.toLower_eq_of_not_isUpper upper]
      exact List.all_eq_true.mp all d mem
  · cases h

/-- The scheme ends at its colon. -/
theorem IsScheme.readScheme? (h : IsScheme s) (rest : List Char) :
    readScheme? (s ++ ':' :: rest) = some (String.ofList s, rest) := by
  obtain ⟨alpha, all⟩ := h
  have inside : ∀ c ∈ s, (c.isAlphanum || c == '+' || c == '-' || c == '.') = true :=
    fun c hc => (all c hc).1
  have lower : s.map Char.toLower = s.map id := List.map_congr_left fun c hc =>
    Char.toLower_eq_of_not_isUpper (by simp [(all c hc).2])
  rw [List.map_id] at lower
  rw [Url.readScheme?]
  rw [List.takeWhile_append_of_pos inside, List.dropWhile_append_of_pos inside,
    List.takeWhile_cons_of_neg (by decide), List.dropWhile_cons_of_neg (by decide), List.append_nil]
  cases s with
  | nil => cases alpha
  | cons first others => exact (if_pos alpha).trans (by rw [lower])

/-! ### What has been read -/

theorem UserinfoText.plain (h : UserinfoText s) : PlainText s := by
  intro c hc
  have kept := (h c hc).1
  refine ⟨seen_of_kept (Bool.or_eq_false_iff.mp kept).1, ?_⟩
  rintro rfl
  cases kept

theorem plain_authority {a : Authority} (username : UserinfoText a.username.toList)
    (password : UserinfoText a.password.toList) (host : PlainText a.host.toList) :
    PlainText a.text.toList := by
  intro c hc
  rcases a.of_mem_text hc with rfl | rfl | digit | mem | mem | mem
  · decide
  · decide
  · exact Host.plain_of_isDigit digit
  · exact username.plain c mem
  · exact password.plain c mem
  · exact host c mem

theorem readAuthority_inv (h : readAuthority scheme s = .ok u) :
    u.scheme = scheme ∧ ∃ a, u.authority = some a ∧ PlainText a.text.toList ∧
      (isSpecialScheme scheme → a.host ≠ "") := by
  rw [readAuthority] at h
  obtain ⟨⟨username, password, rest⟩, credentials, h⟩ := exists_of_bind_eq_ok h
  obtain ⟨user, pass⟩ := readCredentials_shaped credentials
  obtain ⟨host, named, h⟩ := exists_host_of_read (ok_of_guard h)
  obtain ⟨port, rest, h⟩ := exists_of_readPort (ok_of_guard h)
  have plain : PlainText (Authority.mk username password (String.ofList host) port).text.toList ∧
      (isSpecialScheme scheme → String.ofList host ≠ "") := by
    split_ifs at named with special
    · obtain ⟨ne, plain⟩ := Host.plain_of_parse named
      exact ⟨plain_authority user pass (by simpa using plain), fun _ => by simpa using ne⟩
    · exact ⟨plain_authority user pass (by simpa using Host.plain_of_parseOpaque named),
        fun here => absurd here special⟩
  -- what follows changes neither the scheme nor the authority
  suffices u.scheme = scheme ∧
      u.authority = some ⟨username, password, String.ofList host, port⟩ from
    ⟨this.1, _, this.2, plain⟩
  replace h := ok_of_guard h
  split at h
  · split_ifs at h <;> cases h <;> exact ⟨rfl, rfl⟩
  · split_ifs at h <;> cases h <;> exact ⟨rfl, rfl⟩

theorem plain_host {host : String} (h : PlainText host.toList) :
    PlainText (Authority.text { host }).toList :=
  plain_authority (fun _ h => absurd h List.not_mem_nil) (fun _ h => absurd h List.not_mem_nil) h

theorem plain_none : PlainText (Authority.text {}).toList :=
  plain_host fun _ h => absurd h List.not_mem_nil

theorem readFileHost_inv (h : readFileHost s = .ok u) :
    u.scheme = "file" ∧ ∃ a, u.authority = some a ∧ PlainText a.text.toList := by
  rw [readFileHost] at h
  dsimp only at h
  split at h
  · cases h
    exact ⟨rfl, _, rfl, plain_none⟩
  · obtain ⟨host, named, h⟩ := exists_of_bind_eq_ok h
    split at h
    · cases h
      exact ⟨rfl, _, rfl, plain_none⟩
    · cases h
      split_ifs
      · exact ⟨rfl, _, rfl, plain_none⟩
      · exact ⟨rfl, _, rfl, plain_host (by simpa using (Host.plain_of_parse named).2)⟩

theorem readFile_inv (h : readFile none s = .ok u) :
    u.scheme = "file" ∧ ∃ a, u.authority = some a ∧ PlainText a.text.toList := by
  unfold readFile at h
  dsimp only at h
  split at h
  · split_ifs at h
    · split at h
      · split_ifs at h
        · exact readFileHost_inv h
        · cases h
          exact ⟨rfl, _, rfl, plain_none⟩
      · cases h
        exact ⟨rfl, _, rfl, plain_none⟩
    · cases h
      exact ⟨rfl, _, rfl, plain_none⟩
  · cases h
    exact ⟨rfl, _, rfl, plain_none⟩

/-- What is read without a base begins with its scheme, and its authority can be written. -/
theorem read_inv (h : read none s = .ok u) : (∃ rest, readScheme? s = some (u.scheme, rest)) ∧
    ∀ a ∈ u.authority, PlainText a.text.toList ∧
      (isSpecialScheme u.scheme → u.scheme ≠ "file" → a.host ≠ "") := by
  rw [read] at h
  split at h
  · next scheme rest found =>
    have of_authority {s : List Char} (h : readAuthority scheme s = .ok u) :
        u.scheme = scheme ∧ ∀ a ∈ u.authority, PlainText a.text.toList ∧
          (isSpecialScheme u.scheme → u.scheme ≠ "file" → a.host ≠ "") := by
      obtain ⟨rfl, a, here, plain, named⟩ := readAuthority_inv h
      rw [here]
      refine ⟨rfl, ?_⟩
      rintro _ ⟨⟩
      exact ⟨plain, fun special _ => named special⟩
    suffices u.scheme = scheme ∧ ∀ a ∈ u.authority, PlainText a.text.toList ∧
        (isSpecialScheme u.scheme → u.scheme ≠ "file" → a.host ≠ "") from
      ⟨⟨rest, this.1 ▸ found⟩, this.2⟩
    split_ifs at h with file special
    · obtain ⟨same, a, here, plain⟩ := readFile_inv h
      rw [here]
      refine ⟨same.trans (beq_iff_eq.mp file).symm, ?_⟩
      rintro _ ⟨⟩
      exact ⟨plain, fun _ other => absurd same other⟩
    · exact of_authority h
    · unfold readOther at h
      split at h
      · exact of_authority h
      · cases h
        exact ⟨rfl, fun _ none => by cases none⟩
      · cases h
        exact ⟨rfl, fun _ none => by cases none⟩
  · cases h

/-! ### What stands before a path -/

/-- Neither a path nor what follows one begins in the text. -/
def Bare (s : List Char) : Prop :=
  ∀ c ∈ s, c ≠ '/' ∧ c ≠ '\\' ∧ endsPath c = false

theorem hostLength_append (h : Bare s) (special bracketed : Bool) (rest : List Char) :
    hostLength special bracketed (s ++ '/' :: rest) = hostLength special bracketed s ∧
      hostLength special bracketed s ≤ s.length := by
  induction s generalizing bracketed with
  | nil => simp [hostLength]
  | cons c s ih =>
    have ih := fun b => ih (fun c hc => h c (List.mem_cons_of_mem _ hc)) b
    rw [List.cons_append, hostLength, hostLength]
    split_ifs
    · simp
    · simp only [(ih _).1]
      exact ⟨trivial, Nat.succ_le_succ (ih _).2⟩

/-- Behind the host of a bare text stands nothing, or the colon of a port. -/
theorem drop_hostLength_head? (h : Bare s) (special bracketed : Bool) :
    ∀ c ∈ (s.drop (hostLength special bracketed s)).head?, c = ':' := by
  induction s generalizing bracketed with
  | nil => simp
  | cons d s ih =>
    obtain ⟨slash, backslash, ends⟩ := h d List.mem_cons_self
    rw [hostLength]
    split_ifs with stop
    · have colon : d = ':' ∧ bracketed = false := by simpa [slash, backslash, ends] using stop
      simpa using colon.1
    · exact ih (fun c hc => h c (List.mem_cons_of_mem _ hc)) _

theorem Bare.drop (h : Bare s) (n : Nat) : Bare (s.drop n) :=
  fun c hc => h c (List.mem_of_mem_drop hc)

/-- A slash behind a bare text is the first character that ends a path or an authority. -/
theorem Bare.takeWhile_append (stops : Char → Bool) (h : Bare s) (slash : stops '/' = true)
    (others : ∀ c, c ≠ '/' → c ≠ '\\' → endsPath c = false → stops c = false) (rest : List Char) :
    (s ++ '/' :: rest).takeWhile (fun c => !stops c) = s ∧
      (s ++ '/' :: rest).dropWhile (fun c => !stops c) = '/' :: rest := by
  have all : ∀ c ∈ s, (!stops c) = true := fun c hc => by
    obtain ⟨slash, backslash, ends⟩ := h c hc
    simp [others c slash backslash ends]
  rw [List.takeWhile_append_of_pos all, List.dropWhile_append_of_pos all,
    List.takeWhile_cons_of_neg (by simp [slash]), List.dropWhile_cons_of_neg (by simp [slash]),
    List.append_nil]
  exact ⟨rfl, rfl⟩

theorem readCredentials_append (special : Bool) (h : Bare s) :
    ∃ read : Except UrlError (String × String × {t // Bare t}), ∀ rest,
      readCredentials special (s ++ '/' :: rest) =
        read.map fun (username, password, t) => (username, password, t.1 ++ '/' :: rest) := by
  have others : ∀ c, c ≠ '/' → c ≠ '\\' → endsPath c = false →
      (c == '/' || endsPath c || (special && c == '\\')) = false := by
    intro c slash backslash ends
    simp [slash, backslash, ends]
  have stop (rest : List Char) := (h.takeWhile_append _ rfl others rest).1
  by_cases at_ : s.contains '@' = true
  · set userinfo := s.take (s.length - (Text.afterLast (· == '@') s).length - 1) with huserinfo
    have short : userinfo.length + 1 ≤ s.length := by
      have : 0 < s.length := List.length_pos_of_mem (List.contains_iff_mem.mp at_)
      rw [huserinfo, List.length_take]
      omega
    have behind (rest : List Char) : (s.drop (userinfo.length + 1) ++ '/' :: rest).head?.any
        (fun c => c == '/' || endsPath c || (special && c == '\\')) =
          (s.drop (userinfo.length + 1)).isEmpty := by
      cases eq : s.drop (userinfo.length + 1) with
      | nil => rfl
      | cons c t =>
        obtain ⟨slash, backslash, ends⟩ := h.drop _ c (eq ▸ List.mem_cons_self)
        exact others c slash backslash ends
    let encode (t : List Char) := String.ofList (percentEncode inUserinfoSet t)
    refine ⟨if userinfo.isEmpty && (s.drop (userinfo.length + 1)).isEmpty then .error .emptyHost
      else .ok (encode (userinfo.takeWhile (· != ':')),
        encode ((userinfo.dropWhile (· != ':')).drop 1), ⟨_, h.drop (userinfo.length + 1)⟩),
      fun rest => ?_⟩
    rw [readCredentials]
    dsimp only
    rw [stop rest, if_neg (by simpa using at_), ← huserinfo, List.drop_append_of_le_length short,
      behind rest]
    split_ifs <;> rfl
  · refine ⟨.ok ("", "", ⟨s, h⟩), fun rest => ?_⟩
    rw [readCredentials]
    dsimp only
    rw [stop rest, if_pos (by simpa using at_)]
    rfl

theorem readPort_append (scheme : String) (h : Bare s) :
    ∃ read : Except UrlError (Option Nat), ∀ rest,
      readPort scheme (s ++ '/' :: rest) = read.map fun port => (port, '/' :: rest) := by
  have digits (rest : List Char) : (s ++ '/' :: rest).takeWhile Char.isDigit =
      s.takeWhile Char.isDigit := by
    rw [List.takeWhile_append, List.takeWhile_cons_of_neg (by decide), List.append_nil]
    split_ifs with all
    · exact ((List.takeWhile_prefix _).eq_of_length all).symm
    · rfl
  have behind (rest : List Char) : (s ++ '/' :: rest).dropWhile Char.isDigit =
      s.dropWhile Char.isDigit ++ '/' :: rest := by
    rw [List.dropWhile_append, List.dropWhile_cons_of_neg (by decide)]
    split_ifs with none
    · rw [List.isEmpty_iff.mp none, List.nil_append]
    · rfl
  have last (rest : List Char) : (s.dropWhile Char.isDigit ++ '/' :: rest).head?.any
      (fun c => !(isSlash c || endsPath c)) = !(s.dropWhile Char.isDigit).isEmpty := by
    cases eq : s.dropWhile Char.isDigit with
    | nil => rfl
    | cons c t =>
      have mem : c ∈ s.dropWhile Char.isDigit := eq ▸ List.mem_cons_self
      obtain ⟨slash, backslash, ends⟩ := h c ((List.dropWhile_sublist _).subset mem)
      simp [isSlash, slash, backslash, ends]
  set value := (s.takeWhile Char.isDigit).foldl (fun n c => 10 * n + (c.toNat - 48)) 0 with hvalue
  refine ⟨if value > 65535 then .error .invalidPort
    else if !(s.dropWhile Char.isDigit).isEmpty then .error .invalidPort
    else if (s.takeWhile Char.isDigit).isEmpty || defaultPort? scheme == some value then .ok none
    else .ok (some value), fun rest => ?_⟩
  rw [readPort, digits, behind, last, ← hvalue]
  split_ifs with large some none
  · rfl
  · rfl
  · rw [show s.dropWhile Char.isDigit = [] by simpa using some]
    rfl
  · rw [show s.dropWhile Char.isDigit = [] by simpa using some]
    rfl

/-- The reading of what follows a host. -/
def readBehindHost (scheme username password : String) (host s : List Char) :
    Except UrlError Url := do
  if host.isEmpty && s.head? == some ':' then throw .emptyHost
  let (port, rest) ← match s with
    | ':' :: portText => readPort scheme portText
    | _ => pure (none, s)
  if host.isEmpty && !(username.isEmpty && password.isEmpty) then throw .emptyHost
  let authority : Authority := { username, password, host := String.ofList host, port }
  let u : Url := { scheme, authority := some authority, path := "" }
  match rest with
  | [] => return if isSpecialScheme scheme then withRest u {} [] else u
  | c :: behind =>
    if c == '/' || (isSpecialScheme scheme && c == '\\') then return withRest u {} behind
    else if endsPath c && !isSpecialScheme scheme then return withTail u rest
    else return withRest u {} rest

theorem readAuthority_eq (scheme : String) (s : List Char) : readAuthority scheme s =
    readCredentials (isSpecialScheme scheme) s >>= fun (username, password, rest) =>
      let length := hostLength (isSpecialScheme scheme) false rest
      if isSpecialScheme scheme && (rest.take length).isEmpty then .error .emptyHost
      else
        (if isSpecialScheme scheme then Host.parse (rest.take length)
          else Host.parseOpaque (rest.take length)) >>= fun host =>
            readBehindHost scheme username password host (rest.drop length) := by
  unfold readAuthority readBehindHost
  refine congrArg _ (funext fun parts => ?_)
  obtain ⟨username, password, rest⟩ := parts
  dsimp only
  cases special : isSpecialScheme scheme with
  | false => rfl
  | true =>
    cases empty : (rest.take (hostLength true false rest)).isEmpty with
    | false => rfl
    | true => rfl

theorem readBehindHost_append (scheme username password : String) (host : List Char) (h : Bare s)
    (colon : ∀ c ∈ s.head?, c = ':') : ∃ read : Except UrlError Authority, ∀ rest,
      readBehindHost scheme username password host (s ++ '/' :: rest) =
        read.map fun a => withRest { scheme, authority := some a, path := "" } {} rest := by
  -- without a host there can be neither a port nor credentials
  set lone := host.isEmpty && !(username.isEmpty && password.isEmpty) with hlone
  cases s with
  | nil =>
    refine ⟨if lone then .error .emptyHost
      else .ok ⟨username, password, String.ofList host, none⟩, fun rest => ?_⟩
    rw [readBehindHost, ← hlone]
    cases lone <;>
      simp [Except.map, bind, Except.bind, pure, Except.pure, throw, throwThe, MonadExceptOf.throw]
  | cons c s =>
    obtain rfl := colon c rfl
    obtain ⟨read, port⟩ := readPort_append scheme fun c hc => h c (List.mem_cons_of_mem _ hc)
    refine ⟨if host.isEmpty then .error .emptyHost else read.bind fun port =>
      if lone then .error .emptyHost
      else .ok ⟨username, password, String.ofList host, port⟩, fun rest => ?_⟩
    rw [readBehindHost, ← hlone]
    cases host.isEmpty <;> cases lone <;> cases read <;>
      simp [port, Except.map, bind, Except.bind, pure, Except.pure, throw, throwThe,
        MonadExceptOf.throw]

/-- What is read before a path does not depend on it. -/
theorem readAuthority_append (scheme : String) (h : Bare s) :
    ∃ read : Except UrlError Authority, ∀ rest, readAuthority scheme (s ++ '/' :: rest) =
      read.map fun a => withRest { scheme, authority := some a, path := "" } {} rest := by
  obtain ⟨credentials, first⟩ := readCredentials_append (isSpecialScheme scheme) h
  simp only [readAuthority_eq, first]
  cases credentials with
  | error e => exact ⟨.error e, fun _ => rfl⟩
  | ok parts =>
    obtain ⟨username, password, t, bare⟩ := parts
    set special := isSpecialScheme scheme
    have length (rest : List Char) := hostLength_append bare special false rest
    set n := hostLength special false t
    simp only [Except.map, bind, Except.bind, (length _).1,
      List.take_append_of_le_length (length []).2, List.drop_append_of_le_length (length []).2]
    by_cases empty : (special && (t.take n).isEmpty) = true
    · exact ⟨.error .emptyHost, fun _ => if_pos empty⟩
    · simp only [if_neg empty]
      cases (if special = true then Host.parse (t.take n) else Host.parseOpaque (t.take n)) with
      | error e => exact ⟨.error e, fun _ => rfl⟩
      | ok host =>
        exact readBehindHost_append scheme username password host (bare.drop n)
          (drop_hostLength_head? bare special false)

theorem readFileHost_of_bare (h : Bare s) (rest : List Char) : readFileHost (s ++ '/' :: rest) =
    if s.isEmpty || isDriveLetter s then
      .ok (withRest { scheme := "file", authority := some {}, path := "" } {} (s ++ '/' :: rest))
    else Host.parse s >>= fun host =>
      if host == "localhost".toList then
        .ok (withRest { scheme := "file", authority := some {}, path := "" } {} ('/' :: rest))
      else
        let u := withRest
          { scheme := "file", authority := some { host := String.ofList host }, path := "" } {} rest
        .ok (if (continuePath true true {} (cutPath rest).1).2 then { u with authority := some {} }
          else u) := by
  have others : ∀ c, c ≠ '/' → c ≠ '\\' → endsPath c = false →
      (isSlash c || endsPath c) = false := by
    intro c slash backslash ends
    simp [isSlash, slash, backslash, ends]
  obtain ⟨host, behind⟩ := h.takeWhile_append (fun c => isSlash c || endsPath c) rfl others rest
  rw [readFileHost]
  dsimp only
  rw [host, behind]
  rfl

/-- A `file` URL is read from its own authority in the same way with another path, unless that
begins with a drive letter. -/
theorem readFileHost_append {a : Authority} (h : Bare a.text.toList) (here : u.authority = some a)
    {rest rest' : List Char} (read : readFileHost (a.text.toList ++ '/' :: rest) = .ok u)
    (drive : a.host ≠ "" → (continuePath true true {} (cutPath rest').1).2 →
      (continuePath true true {} (cutPath rest).1).2) :
    readFileHost (a.text.toList ++ '/' :: rest') = .ok (withRest
      { scheme := "file", authority := some a, path := "" } {}
      (if a.host = "" then '/' :: rest' else rest')) := by
  have nameless (same : some {} = some a) : a.text.toList = [] := by
    cases same
    rfl
  rw [readFileHost_of_bare h] at read ⊢
  by_cases empty : (a.text.toList.isEmpty || isDriveLetter a.text.toList) = true
  · rw [if_pos empty] at read ⊢
    cases read
    obtain rfl : {} = a := Option.some.inj here
    rfl
  · rw [if_neg empty] at read ⊢
    have named : a.text.toList ≠ [] := fun none => empty (by simp [none])
    obtain ⟨host, parsed, read⟩ := exists_of_bind_eq_ok read
    rw [parsed]
    by_cases loopback : (host == "localhost".toList) = true
    · rw [if_pos loopback] at read
      cases read
      exact absurd (nameless here) named
    · rw [if_neg loopback] at read
      by_cases driven : (continuePath true true {} (cutPath rest).1).2 = true
      · simp only [if_pos driven] at read
        cases read
        exact absurd (nameless here) named
      · simp only [if_neg driven] at read
        cases read
        obtain rfl : _ = a := Option.some.inj here
        have given : String.ofList host ≠ "" := by simpa using (Host.plain_of_parse parsed).1
        refine (if_neg loopback).trans ?_
        simp only [if_neg (mt (drive given) driven), if_neg given]

end Url

end ModuleSystem
