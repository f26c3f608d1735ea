import ModuleSystem.Url.Basic

/-!
# Files

The command line reads one file. This file says how reading may fail, gives the `file` URL of a
path, and has a directory of files in memory, from which a path is followed one component at a time.
-/

namespace ModuleSystem

/-- The `file` URL of an absolute path, given by its components. -/
def Url.ofPath (components : List String) : Url :=
  let escaped (c : Char) : Bool := inPathSet c || c == '/' || c == '%' || c == '\\'
  let segments := components.map fun c => percentEncode escaped c.toList
  let path := String.ofList ('/' :: Text.join ['/'] segments)
  { scheme := "file", authority := some {}, path }

namespace CommandLine

/-- Why a file cannot be read as text. -/
inductive FileError where
  | notFound
  | notDirectory
  | isDirectory
  | nameTooLong
  | notUnicode
  | unreadable (reason : String)
deriving DecidableEq, Repr

/-- The error in words. -/
def FileError.message : FileError → String
  | notFound => "No such file or directory (os error 2)"
  | notDirectory => "Not a directory (os error 20)"
  | isDirectory => "Is a directory (os error 21)"
  | nameTooLong => "File name too long (os error 36)"
  | notUnicode => "stream did not contain valid UTF-8"
  | unreadable reason => reason

/-- A file that has been read: its text, and the components of its absolute path. -/
structure SourceFile where
  text : String
  path : List String

/-- A directory of files: its absolute path and the files in it, each with its path below the
directory and its bytes. Nothing else is known of the file system. -/
structure Directory where
  path : List String
  files : List (List String × ByteArray)

/-- What a path leads to. -/
inductive FileNode where
  | file (bytes : ByteArray)
  | directory

/-- How many bytes a name may have. -/
def longestName : Nat := 255

/-- How many bytes a path may have. -/
def longestPath : Nat := 4095

namespace Directory

/-- The files with their absolute paths. -/
def placedFiles (d : Directory) : List (List String × ByteArray) :=
  d.files.map fun (path, bytes) => (d.path ++ path, bytes)

/-- What is at an absolute path. Everything above the directory is a directory, and everything above
a file. -/
def node? (d : Directory) (place : List String) : Option FileNode :=
  match d.placedFiles.lookup place with
  | some bytes => some (.file bytes)
  | none =>
    if place.isPrefixOf d.path || d.placedFiles.any fun (path, _) => place.isPrefixOf path then
      some .directory
    else none

/-- The absolute path that components lead to from a directory, and what is there. The root is its
own parent. -/
def follow (d : Directory) (here : List String) :
    List String → Except FileError (List String × FileNode)
  | [] => .ok (here, .directory)
  | component :: rest =>
    if component == "" || component == "." then d.follow here rest
    else if component == ".." then d.follow here.dropLast rest
    else if longestName < component.utf8ByteSize then .error .nameTooLong
    else
      let next := here ++ [component]
      match d.node? next with
      | some (.file bytes) => if rest.isEmpty then .ok (next, .file bytes) else .error .notDirectory
      | some .directory => d.follow next rest
      | none => .error .notFound

/-- Reads a file at a path, which leads from the directory unless it begins with a slash. -/
def read (d : Directory) (path : String) : Except FileError SourceFile := do
  if longestPath < path.utf8ByteSize then throw .nameTooLong
  let components := (Text.fields (· == '/') path.toList).map String.ofList
  match ← d.follow (if Text.isPrefix "/" path then [] else d.path) components with
  | (_, .directory) => throw .isDirectory
  | (place, .file bytes) =>
    match String.fromUTF8? bytes with
    | some text => return { text, path := place }
    | none => throw .notUnicode

end Directory

end CommandLine

end ModuleSystem
