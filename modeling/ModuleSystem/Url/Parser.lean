import ModuleSystem.Url.Basic

/-!
# Reading URLs

`Url.parse` reads an absolute URL and `Url.join` a reference against a base URL. Blanks and control
characters around the text, and tabs and line breaks inside it, do not count. A reference that has
a scheme stands alone, unless the scheme is special, equals that of the base and is not followed by
two slashes.
-/

namespace ModuleSystem.Url

/-- The characters of a text that count. -/
def relevant (s : String) : List Char :=
  let blank (c : Char) : Bool := c.toNat ≤ 0x20
  let trimmed := ((s.toList.dropWhile blank).reverse.dropWhile blank).reverse
  trimmed.filter fun c => !(['\t', '\n', '\r'].contains c)

/-- Whether a character is a slash or, as special schemes read it, a backslash. -/
def isSlash (c : Char) : Bool :=
  c == '/' || c == '\\'

/-- The scheme that a text begins with, in lower case, and what follows its colon. -/
def readScheme? (s : List Char) : Option (String × List Char) :=
  let inScheme (c : Char) : Bool := c.isAlphanum || c == '+' || c == '-' || c == '.'
  match s.takeWhile inScheme, s.dropWhile inScheme with
  | first :: others, ':' :: rest =>
    if first.isAlpha then some (String.ofList ((first :: others).map Char.toLower), rest) else none
  | _, _ => none

/-- A query and a fragment as they are read from the text after a path. -/
def readTail (special : Bool) (s : List Char) : Option String × Option String :=
  let fragmentOf : List Char → Option String
    | '#' :: rest => some (String.ofList (percentEncode inFragmentSet rest))
    | _ => none
  match s with
  | '?' :: rest =>
    let query := rest.takeWhile (· != '#')
    (some (String.ofList (percentEncode (inQuerySet special) query)),
      fragmentOf (rest.dropWhile (· != '#')))
  | _ => (none, fragmentOf s)

/-- Whether a character ends a path. -/
def endsPath (c : Char) : Bool :=
  c == '?' || c == '#'

/-- A text cut where its path ends. -/
def cutPath (s : List Char) : List Char × List Char :=
  (s.takeWhile fun c => !endsPath c, s.dropWhile fun c => !endsPath c)

/-- The URL with its query and fragment read from the text after its path. -/
def withTail (u : Url) (s : List Char) : Url :=
  let (query, fragment) := readTail (isSpecialScheme u.scheme) s
  { u with query, fragment }

/-- The URL with its path continued from `p` by the text up to a query or a fragment, which are read
as well. The path is marked if it could be taken for an authority. -/
def withRest (u : Url) (p : OpenPath) (s : List Char) : Url :=
  let (text, tail) := cutPath s
  let path := (continuePath (isSpecialScheme u.scheme) (u.scheme == "file") p text).1
  let marked := u.authority.isNone && ['/', '/'].isPrefixOf path
  withTail { u with marked, path := String.ofList path } tail

/-- User name and password, and the text after the last `@` before the path. -/
def readCredentials (special : Bool) (s : List Char) :
    Except UrlError (String × String × List Char) :=
  let endsAuthority (c : Char) : Bool := c == '/' || endsPath c || (special && c == '\\')
  let authority := s.takeWhile fun c => !endsAuthority c
  if !authority.contains '@' then .ok ("", "", s)
  else
    let lastPart := Text.afterLast (· == '@') authority
    let userinfo := authority.take (authority.length - lastPart.length - 1)
    let rest := s.drop (userinfo.length + 1)
    if userinfo.isEmpty && rest.head?.any endsAuthority then .error .emptyHost
    else
      let encode (t : List Char) := String.ofList (percentEncode inUserinfoSet t)
      .ok (encode (userinfo.takeWhile (· != ':')), encode ((userinfo.dropWhile (· != ':')).drop 1),
        rest)

/-- The end of a host: a colon outside brackets, or the start of a path, query or fragment. -/
def hostLength (special : Bool) (bracketed : Bool) : List Char → Nat
  | [] => 0
  | c :: rest =>
    if (c == ':' && !bracketed) || (c == '\\' && special) || c == '/' || endsPath c then 0
    else
      let inside := c == '[' || (bracketed && c != ']')
      hostLength special inside rest + 1

/-- A port, which is not kept if it is the scheme's own, and the text behind it. -/
def readPort (scheme : String) (s : List Char) :
    Except UrlError (Option Nat × List Char) :=
  let digits := s.takeWhile Char.isDigit
  let rest := s.dropWhile Char.isDigit
  let value := digits.foldl (fun n c => 10 * n + (c.toNat - 48)) 0
  if value > 65535 then .error .invalidPort
  else if rest.head?.any fun c => !(isSlash c || endsPath c) then .error .invalidPort
  else if digits.isEmpty || defaultPort? scheme == some value then .ok (none, rest)
  else .ok (some value, rest)

/-- The URL whose text after the scheme and two slashes is `s`. -/
def readAuthority (scheme : String) (s : List Char) : Except UrlError Url := do
  let special := isSpecialScheme scheme
  let (username, password, rest) ← readCredentials special s
  let length := hostLength special false rest
  let hostText := rest.take length
  let rest := rest.drop length
  if special && hostText.isEmpty then throw .emptyHost
  let host ← if special then Host.parse hostText else Host.parseOpaque hostText
  if host.isEmpty && rest.head? == some ':' then throw .emptyHost
  let (port, rest) ← match rest with
    | ':' :: portText => readPort scheme portText
    | _ => pure (none, rest)
  if host.isEmpty && !(username.isEmpty && password.isEmpty) then throw .emptyHost
  let authority : Authority := { username, password, host := String.ofList host, port }
  let u : Url := { scheme, authority := some authority, path := "" }
  match rest with
  | [] => return if special then withRest u {} [] else u
  | c :: behind =>
    if c == '/' || (special && c == '\\') then return withRest u {} behind
    else if endsPath c && !special then return withTail u rest
    else return withRest u {} rest

/-- The `file` URL whose text after two slashes is `s`. -/
def readFileHost (s : List Char) : Except UrlError Url := do
  let endsHost (c : Char) : Bool := isSlash c || endsPath c
  let hostText := s.takeWhile fun c => !endsHost c
  let noHost : Url := { scheme := "file", authority := some {}, path := "" }
  if hostText.isEmpty || isDriveLetter hostText then return withRest noHost {} s
  else
    let host ← Host.parse hostText
    let rest := s.dropWhile fun c => !endsHost c
    if host == "localhost".toList then return withRest noHost {} rest
    let inPath := match rest with
      | c :: behind => if isSlash c then behind else rest
      | [] => rest
    let u := withRest { noHost with authority := some { host := String.ofList host } } {} inPath
    let hasDrive := (continuePath true true {} (cutPath inPath).1).2
    return if hasDrive then { u with authority := some {} } else u

/-- The `file` URL that a text without its scheme stands for, against a base that is a `file` URL
itself, if there is one. -/
def readFile (base : Option Url) (s : List Char) : Except UrlError Url :=
  let root : Url := { scheme := "file", authority := some {}, path := "/" }
  match s with
  | c :: rest =>
    if isSlash c then
      match rest with
      | d :: behind =>
        if isSlash d then readFileHost behind else .ok (fromRoot root rest)
      | [] => .ok (fromRoot root rest)
    else
      match base with
      | none => .ok (withRest root {} s)
      | some b =>
        if c == '?' then .ok (withTail b s)
        else if c == '#' then .ok { b with fragment := (readTail true s).2 }
        else if startsWithDriveLetter s then .ok (withRest root {} s)
        else .ok (withRest b (directory true b.path.toList) s)
  | [] =>
    match base with
    | none => .ok (withRest root {} [])
    | some b => .ok { b with fragment := none }
where
  /-- The reading of what follows a single slash: the base gives its drive letter or its host. -/
  fromRoot (root : Url) (rest : List Char) : Url :=
    match base with
    | none => withRest root {} rest
    | some b =>
      if startsWithDriveLetter rest then withRest root {} rest
      else
        let first := (pathSegments b.path.toList).headD []
        if isNormalDriveLetter first then withRest root { closed := [first] } rest
        else withRest { root with authority := some { host := b.host } } {} rest

/-- The URL that a text without a scheme stands for, against a base that is neither opaque nor a
`file` URL. -/
def readRelative (b : Url) (s : List Char) : Except UrlError Url :=
  match s with
  | [] => .ok { b with fragment := none }
  | c :: rest =>
    if c == '?' then .ok (withTail b s)
    else if c == '#' then .ok { b with fragment := (readTail (isSpecialScheme b.scheme) s).2 }
    else if isSlash c then
      match rest with
      | d :: behind =>
        if c == '/' && d == '/' then readAuthority b.scheme behind
        else if isSlash d then readAuthority b.scheme (s.dropWhile isSlash)
        else .ok (withRest b {} rest)
      | [] => .ok (withRest b {} rest)
    else .ok (withRest b (directory false b.path.toList) s)

/-- The URL of a scheme that is not special, from the text behind the colon. -/
def readOther (scheme : String) (s : List Char) : Except UrlError Url :=
  match s with
  | '/' :: '/' :: rest => readAuthority scheme rest
  | '/' :: rest => .ok (withRest { scheme, path := "" } {} rest)
  | _ =>
    let (text, tail) := cutPath s
    .ok (withTail { scheme, path := String.ofList (percentEncode isControl text) } tail)

/-- The URL that a text stands for, against a base if there is one. -/
def read (base : Option Url) (s : List Char) : Except UrlError Url :=
  match readScheme? s with
  | some (scheme, rest) =>
    if scheme == "file" then readFile (base.filter fun b => b.scheme == "file") rest
    else if isSpecialScheme scheme then
      match base with
      | some b =>
        if b.scheme == scheme && (rest.takeWhile isSlash).length < 2 then readRelative b rest
        else readAuthority scheme (rest.dropWhile isSlash)
      | none => readAuthority scheme (rest.dropWhile isSlash)
    else readOther scheme rest
  | none =>
    match base with
    | none => .error .relativeWithoutBase
    | some b =>
      if s.head? == some '#' then .ok { b with fragment := (readTail true s).2 }
      else if b.isOpaque then .error .relativeToOpaque
      else if b.scheme == "file" then readFile (some b) s
      else readRelative b s

/-- Reads an absolute URL. -/
def parse (s : String) : Except UrlError Url :=
  read none (relevant s)

/-- Reads a reference against the URL `base`. -/
def join (base : Url) (s : String) : Except UrlError Url :=
  read (some base) (relevant s)

end ModuleSystem.Url
