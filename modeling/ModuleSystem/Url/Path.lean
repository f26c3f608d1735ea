import ModuleSystem.Text.Affix
import ModuleSystem.Url.Percent

/-!
# Paths

A hierarchical path is a list of segments, each written after a slash. While a path is read, the
segments `.` and `..` are carried out at once: the first names the directory reached so far, the
second its parent. A drive letter is never left by going to the parent. In a `file` path the first
segment may be a drive letter, which is written with a colon, and empty segments at the front are
dropped.
-/

namespace ModuleSystem.Url

/-- Whether the text begins with a drive letter: an ASCII letter and `:` or `|`, then the end or a
character that ends a segment. -/
def startsWithDriveLetter : List Char → Bool
  | a :: b :: rest =>
    a.isAlpha && (b == ':' || b == '|')
      && (rest.head?.all fun c => ['/', '\\', '?', '#'].contains c)
  | _ => false

/-- Whether a segment is a drive letter. -/
def isDriveLetter (segment : List Char) : Bool :=
  segment.length == 2 && startsWithDriveLetter segment

/-- Whether a segment is a drive letter written with a colon. -/
def isNormalDriveLetter (segment : List Char) : Bool :=
  isDriveLetter segment && segment.getLast? == some ':'

/-- Whether a segment names the directory it stands in. -/
def isSingleDot (segment : List Char) : Bool :=
  let lower := segment.map Char.toLower
  lower == ['.'] || lower == ['%', '2', 'e']

/-- Whether a segment names the parent of the directory it stands in. -/
def isDoubleDot (segment : List Char) : Bool :=
  let lower := segment.map Char.toLower
  lower == ['.', '.'] || lower == ['.', '%', '2', 'e'] || lower == ['%', '2', 'e', '.']
    || lower == ['%', '2', 'e', '%', '2', 'e']

/-- A path while it is read: the segments already closed by a slash, the latest first; the text
that already stands in the open segment; and whether a drive letter was read at the front. -/
structure OpenPath where
  closed : List (List Char) := []
  held : List Char := []
  drive : Bool := false

namespace OpenPath

/-- The path with the open segment closed, if any text stands in it. -/
def settle (p : OpenPath) : OpenPath :=
  if p.held.isEmpty then p else { p with closed := p.held :: p.closed, held := [] }

/-- The path without its last closed segment, which stays if it is a drive letter. -/
def parent (p : OpenPath) : OpenPath :=
  match p.closed with
  | [] => p
  | segment :: others =>
    if startsWithDriveLetter (segment ++ ['/']) then p else { p with closed := others }

/-- The path after one more segment and the slash behind it. -/
def close (file : Bool) (p : OpenPath) (segment : List Char) : OpenPath :=
  if isDoubleDot segment then
    if p.held.isEmpty then p.parent else p.settle
  else if isSingleDot segment then p.settle
  else if file && p.closed.isEmpty && p.held.isEmpty && isDriveLetter segment then
    { closed := [segment.take 1 ++ [':']], drive := true }
  else { p with closed := (p.held ++ segment) :: p.closed, held := [] }

/-- All segments of the path whose last segment is given, and whether it has a drive letter at the
front. -/
def finish (file : Bool) (p : OpenPath) (segment : List Char) : List (List Char) × Bool :=
  if isDoubleDot segment then
    if p.held.isEmpty then (p.parent.closed.reverse ++ [[]], p.drive)
    else (p.closed.reverse ++ [p.held], p.drive)
  else if isSingleDot segment then (p.settle.closed.reverse ++ [[]], p.drive)
  else if file && p.closed.isEmpty && p.held.isEmpty && isDriveLetter segment then
    ([segment.take 1 ++ [':']], true)
  else (p.closed.reverse ++ [p.held ++ segment], p.drive)

/-- The segments of the path continued by a list of segments, the last of which is not closed. -/
def read (file : Bool) (p : OpenPath) : List (List Char) → List (List Char) × Bool
  | [] => p.finish file []
  | [segment] => p.finish file segment
  | segment :: others => (p.close file segment).read file others

end OpenPath

/-- The text of a path of the given segments; a `file` path does not begin with an empty segment
unless it has no other. -/
def pathText (file : Bool) (segments : List (List Char)) : List Char :=
  let kept := if file then segments.dropWhile List.isEmpty else segments
  '/' :: Text.join ['/'] kept

/-- The text of a path continued by `text`, and whether it has a drive letter at the front. A
backslash counts as a slash in a special scheme. -/
def continuePath (special file : Bool) (p : OpenPath) (text : List Char) : List Char × Bool :=
  let segments := Text.fields (fun c => c == '/' || (special && c == '\\')) text
  let (segments, drive) := p.read file (segments.map (percentEncode inPathSet))
  (pathText file segments, drive)

/-- The segments of the path `path`, which is empty or begins with a slash. -/
def pathSegments (path : List Char) : List (List Char) :=
  match path with
  | [] => []
  | _ :: rest => Text.fields (· == '/') rest

/-- The directory of a path, open for one more segment. In a `file` path a last segment that is a
drive letter is part of the directory; below another directory it stays open instead. -/
def directory (file : Bool) (path : List Char) : OpenPath :=
  match (pathSegments path).reverse with
  | [] => {}
  | last :: closed =>
    if file && isNormalDriveLetter last then
      if closed.isEmpty then { closed := [last] } else { closed, held := last }
    else { closed }

end ModuleSystem.Url
