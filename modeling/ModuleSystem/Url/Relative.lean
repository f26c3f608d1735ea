import ModuleSystem.Url.Parser

/-!
# Origins and relative references

Two URLs share an *origin* when they have the same scheme, host and port; other URLs than those of
the network schemes have the opaque origin `null`. `Url.makeRelative` gives a reference that leads
from one URL to another on the same host.
-/

namespace ModuleSystem.Url

/-- The origin of a URL; one written inside a `blob` URL is looked up at most `depth` times. -/
def originWithin (depth : Nat) (u : Url) : String :=
  match defaultPort? u.scheme with
  | some standard =>
    let port := match u.port? with
      | some n => if n = standard then "" else ":" ++ toString n
      | none => ""
    u.scheme ++ "://" ++ u.host ++ port
  | none =>
    if u.scheme = "blob" then
      match depth with
      | 0 => "null"
      | depth + 1 =>
        match parse u.path with
        | .ok inner => originWithin depth inner
        | .error _ => "null"
    else "null"

/-- The origin of a URL in its written form. A `blob` URL has that of the URL in its path, which
is shorter than the path that holds it. -/
def origin (u : Url) : String :=
  originWithin u.path.length u

/-- A path cut at its last slash: the directory in front of it and the name behind it. -/
def cutName (path : List Char) : List Char × List Char :=
  if path.contains '/' then
    let name := Text.afterLast (· == '/') path
    (path.take (path.length - name.length - 1), name)
  else ([], path.drop 1)

/-- What two lists have after their longest common beginning. -/
def dropCommon : List (List Char) → List (List Char) → List (List Char) × List (List Char)
  | a :: as, b :: bs => if a == b then dropCommon as bs else (a :: as, b :: bs)
  | as, bs => (as, bs)

/-- The path of a reference that leads from one path to another: up from what is left of the base's
directory, down through what is left of the other, then the name. -/
def relativePath (base target : List Char) : List Char :=
  let (baseDirectory, baseName) := cutName base
  let (targetDirectory, targetName) := cutName target
  let (up, down) :=
    dropCommon (Text.fields (· == '/') baseDirectory) (Text.fields (· == '/') targetDirectory)
  let extend (soFar piece : List Char) : List Char :=
    if soFar.isEmpty then piece else soFar ++ '/' :: piece
  let climbed := (up.takeWhile fun s => !s.isEmpty).foldl (fun r _ => extend r ['.', '.']) []
  let directory := down.foldl extend climbed
  if directory.isEmpty && baseName == targetName then []
  else if targetName.isEmpty then directory ++ ['/']
  else extend directory targetName

/-- A reference that leads from `base` to `u`, if they have scheme, host and port in common. -/
def makeRelative (base u : Url) : Option String :=
  if base.isOpaque || base.scheme != u.scheme || base.host != u.host || base.port? != u.port? then
    none
  else some (String.ofList (relativePath base.path.toList u.path.toList) ++ u.afterPath)

end ModuleSystem.Url
