import ModuleSystem.CommandLine.Report

/-!
# The program

`main` runs the command line in the current directory. It ends with 0 if every specifier was
resolved, with 1 if not, and with 2 if its arguments are refused.
-/

open ModuleSystem ModuleSystem.CommandLine

/-- The components of an absolute path. -/
def pathComponents (path : String) : List String :=
  ((Text.fields (· == '/') path.toList).map String.ofList).filter (· != "")

/-- The number of an error, which the system gives with either sign. -/
def errorNumber (code : UInt32) : Nat :=
  min code.toNat (Nat.pow 2 32 - code.toNat)

/-- Why a file could not be read. -/
def fileError : IO.Error → FileError
  | .noFileOrDirectory .. => .notFound
  | .inappropriateType _ code details =>
    match errorNumber code with
    | 20 => .notDirectory
    | 21 => .isDirectory
    | _ => .unreadable details
  | .invalidArgument _ code details =>
    if errorNumber code = 36 then .nameTooLong else .unreadable details
  | other => .unreadable (toString other)

/-- Reads a file. -/
def readSource (path : String) : IO (Except FileError SourceFile) := do
  try
    let bytes ← IO.FS.readBinFile path
    let place ← IO.FS.realPath path
    match String.fromUTF8? bytes with
    | some text => return .ok { text, path := pathComponents place.toString }
    | none => return .error .notUnicode
  catch e => return .error (fileError e)

def main (arguments : List String) : IO UInt32 := do
  match Options.parse arguments with
  | .error e =>
    IO.eprintln ("error: " ++ e.message)
    return 2
  | .ok options =>
    let file ← match options.importMap with
      | some path => readSource path
      | none => pure (.error .notFound)
    let directory := pathComponents (← IO.currentDir).toString
    let report := run options directory fun _ => file
    IO.print report.output
    IO.eprint report.errors
    return if report.success then 0 else 1
