import ModuleSystem.Url.Host
import ModuleSystem.Url.Path

/-!
# URLs

An absolute URL is kept in parts: scheme, authority, path, query and fragment, each in its written
form. `Url.href` writes the whole. A URL without an authority whose path does not begin with a
slash is *opaque*: nothing can be resolved against it but a fragment.
-/

namespace ModuleSystem

/-- Who is addressed: credentials, host and port. An empty user name, password or host is not
there; a port is given only where it is not the scheme's own. -/
structure Authority where
  username : String := ""
  password : String := ""
  host : String := ""
  port : Option Nat := none
deriving DecidableEq, Repr

/-- An absolute URL in parts. A path that begins with two slashes is kept apart from an authority
by `/.` before it. Reading a path puts the mark where it is needed; to change the path of a URL that
has been read leaves the mark as it is. -/
structure Url where
  scheme : String
  authority : Option Authority := none
  marked : Bool := false
  path : String
  query : Option String := none
  fragment : Option String := none
deriving DecidableEq, Repr

/-- The written form of an authority, without the slashes before it. -/
def Authority.text (a : Authority) : String :=
  let password := if a.password.isEmpty then "" else ":" ++ a.password
  let credentials :=
    if a.username.isEmpty && a.password.isEmpty then "" else a.username ++ password ++ "@"
  let port := match a.port with
    | some n => ":" ++ toString n
    | none => ""
  credentials ++ a.host ++ port

namespace Url

/-- The port that a scheme uses when none is written. -/
def defaultPort? (scheme : String) : Option Nat :=
  if scheme = "http" ∨ scheme = "ws" then some 80
  else if scheme = "https" ∨ scheme = "wss" then some 443
  else if scheme = "ftp" then some 21
  else none

/-- Whether a scheme is special: its URLs always have a host, but for `file`, and a path. -/
def isSpecialScheme (scheme : String) : Bool :=
  scheme == "file" || (defaultPort? scheme).isSome

/-- What stands before the path. -/
def beforePath (u : Url) : String :=
  let authority := match u.authority with
    | some a => "//" ++ a.text
    | none => ""
  u.scheme ++ ":" ++ authority ++ (if u.marked then "/." else "")

/-- The query and the fragment with the marks before them. -/
def afterPath (u : Url) : String :=
  let query := match u.query with
    | some q => "?" ++ q
    | none => ""
  let fragment := match u.fragment with
    | some f => "#" ++ f
    | none => ""
  query ++ fragment

/-- The written form of a URL. -/
def href (u : Url) : String :=
  u.beforePath ++ u.path ++ u.afterPath

instance : ToString Url := ⟨href⟩

/-- Whether nothing but a fragment can be resolved against the URL. -/
def isOpaque (u : Url) : Bool :=
  u.authority.isNone && !u.marked && !Text.isPrefix "/" u.path

/-- The host of a URL; empty without one. -/
def host (u : Url) : String :=
  (u.authority.map Authority.host).getD ""

/-- The port of a URL where it is not the scheme's own. -/
def port? (u : Url) : Option Nat :=
  u.authority.bind Authority.port

/-- The URL with another path, which is read as the path of a reference would be, except that a
question mark and a number sign belong to it. Behind an empty host the slash at the front closes a
segment of its own, as it does where a `file` URL is read. -/
def withPath (u : Url) (path : String) : Url :=
  let text := path.toList.filter fun c => !(['\t', '\n', '\r'].contains c)
  if u.isOpaque then
    let text := match text with
      | '/' :: rest => ['%', '2', 'F'] ++ percentEncode isControl rest
      | _ => percentEncode isControl text
    { u with path := String.ofList text }
  else
    let special := isSpecialScheme u.scheme
    let file := u.scheme == "file"
    let read (text : List Char) : Url :=
      { u with path := String.ofList (continuePath special file {} text).1 }
    match text with
    | '/' :: rest => read (if file && u.host == "" then text else rest)
    | '\\' :: rest => if special then read rest else read text
    | [] => if special then read text else { u with path := "" }
    | '?' :: _ | '#' :: _ => if special then read text else { u with path := "" }
    | _ => read text

end Url

end ModuleSystem
