import ModuleSystem.Table
import ModuleSystem.Text.Quoted
import ModuleSystem.Url.Relative

/-!
# Specifiers

A specifier is the text by which one module names another. It is *URL-like* when it has a scheme or
is a relative path, and *bare* otherwise. This file resolves URL-like specifiers, reads file name
extensions, compares keys, and writes a URL as a specifier relative to another.
-/

namespace ModuleSystem

/-- Why a URL-like specifier has no URL. -/
inductive SpecifierError where
  | relativeWithoutBase (specifier : String)
  | invalidUrl (specifier : String) (reason : UrlError)
deriving DecidableEq, Repr

/-- The error in words. -/
def SpecifierError.message : SpecifierError → String
  | relativeWithoutBase specifier =>
    "relative specifier " ++ Text.quote specifier ++ " cannot be resolved without a base URL"
  | invalidUrl specifier reason =>
    Text.quote specifier ++ " is not a valid URL: " ++ reason.message

namespace Specifier

/-- Whether a text begins with a scheme. A scheme has two characters at least, so that a drive
letter is none. -/
def hasScheme (s : String) : Bool :=
  let chars := s.toList
  let scheme := chars.takeWhile (· != ':')
  let inScheme (c : Char) : Bool := c.isAlphanum || c == '+' || c == '-' || c == '.'
  scheme.length < chars.length && 2 ≤ scheme.length
    && scheme.head?.any Char.isAlpha && (scheme.drop 1).all inScheme

/-- Whether a specifier is resolved as a URL, on its own or against a base. -/
def isUrlLike (s : String) : Bool :=
  s == "." || s == ".." || Text.isPrefix "/" s || Text.isPrefix "./" s || Text.isPrefix "../" s
    || hasScheme s

/-- The URL of a specifier against a base; a bare one counts as a path. -/
def resolveAgainst (s : String) (base : Url) : Except SpecifierError Url :=
  (base.join s).mapError (.invalidUrl s)

/-- The URL of a URL-like specifier; a bare one has none. -/
def resolve? (s : String) (base : Option Url) : Except SpecifierError (Option Url) :=
  if hasScheme s then ((Url.parse s).mapError (.invalidUrl s)).map some
  else if isUrlLike s then
    match base with
    | some b => (resolveAgainst s b).map some
    | none => .error (.relativeWithoutBase s)
  else .ok none

/-- The URL of a specifier where no import map is in use: a bare one counts as a path. -/
def resolvePlain (s : String) (referrer : Option Url) : Except SpecifierError Url :=
  if hasScheme s then (Url.parse s).mapError (.invalidUrl s)
  else
    match referrer with
    | some r => resolveAgainst s r
    | none => .error (.relativeWithoutBase s)

/-- The extension of the last segment of a path, from its last dot on; empty without one. -/
def extension (path : String) : String :=
  let name := Text.afterLast (· == '/') path.toList
  if name.contains '.' then String.ofList ('.' :: Text.afterLast (· == '.') name) else ""

/-- Whether `directory` ends with a slash and begins `s`. -/
def isDirectoryOf (directory s : String) : Bool :=
  Text.endsWithChar directory '/' && Text.isPrefix directory s

/-- Whether one key comes before another: a longer one first, counted in bytes, and of two equally
long ones the lesser. -/
def keyBefore (a b : String) : Bool :=
  b.utf8ByteSize < a.utf8ByteSize || (a.utf8ByteSize == b.utf8ByteSize && Table.byBytes a b)

end Specifier

namespace Url

/-- The origin of a URL, where every `file` URL has the same. -/
def originOrFile (u : Url) : String :=
  if u.scheme == "file" then "file://" else u.origin

/-- Whether a URL lies below the directory that another one names. -/
def isInside (u directory : Url) : Bool :=
  Specifier.isDirectoryOf directory.href u.href && u.href != directory.href

/-- A specifier for `u` in a document at `base`: a relative one where both share an origin, unless
that would be a query or a fragment alone. -/
def relativeTo (u base : Url) : String :=
  if u.originOrFile != base.originOrFile then u.href
  else
    match base.makeRelative u with
    | none => u.href
    | some relative =>
      if relative == "" || relative == "/" then "./"
      else if Text.isPrefix "../" relative then relative
      else if Text.isPrefix "?" relative || Text.isPrefix "#" relative then u.href
      else "./" ++ relative

end Url

end ModuleSystem
