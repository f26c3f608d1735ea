import ModuleSystem.CommandLine.Arguments
import ModuleSystem.CommandLine.Files
import ModuleSystem.ImportMap.Document
import ModuleSystem.Json.Writer
import ModuleSystem.Resolver.Basic

/-!
# The command line

The command resolves specifiers through an import map and reports the URLs, as lines of text or as
JSON. Diagnostics of the map come first, on the error channel; the map itself is printed on demand.
The command succeeds if every specifier has a URL.
-/

namespace ModuleSystem.CommandLine

/-- What a command writes, and whether it succeeds. -/
structure Report where
  output : String := ""
  errors : String := ""
  success : Bool := true
deriving DecidableEq, Repr

/-- Why a command ends early. -/
inductive Failure where
  | unreadable (path : String) (reason : FileError)
  | invalidMap (path : String) (reason : DocumentError)

/-- The failure in words. -/
def Failure.message : Failure → String
  | unreadable path reason => "failed to read " ++ path ++ ": " ++ reason.message
  | invalidMap path reason => "invalid import map " ++ path ++ ": " ++ reason.message

/-- The policy that the options choose. An empty extension is none. -/
def Options.policy (o : Options) : ExtensionPolicy :=
  match o.defaultExtension with
  | some extension =>
    if extension != "" then .fixed extension else if o.inferExtension then .infer else .disabled
  | none => if o.inferExtension then .infer else .disabled

/-- The import map that the options name, and its diagnostics. Without a base URL it is resolved
against the URL of its file. -/
def Options.loadMap (o : Options) (read : String → Except FileError SourceFile) :
    Except Failure (Option ImportMap × List Diagnostic) :=
  match o.importMap with
  | none => .ok (none, [])
  | some path =>
    match read path with
    | .error reason => .error (.unreadable path reason)
    | .ok file =>
      match ImportMap.parse file.text (o.baseUrl.getD (Url.ofPath file.path)) with
      | .error reason => .error (.invalidMap path reason)
      | .ok (m, diagnostics) => .ok (some m, diagnostics)

/-- The lines given, each with its line break. -/
def unlines (lines : List String) : String :=
  String.join (lines.map (· ++ "\n"))

/-- The diagnostics as they are reported. -/
def diagnosticsText (json : Bool) (diagnostics : List Diagnostic) : String :=
  if json then
    if diagnostics.isEmpty then ""
    else unlines [(Json.array (diagnostics.map Diagnostic.toJson)).compact]
  else unlines (diagnostics.map Diagnostic.display)

/-- One resolution as JSON. -/
def resolutionJson (specifier : String) (result : Except ResolveError Url) : Json :=
  .object [("specifier", .string specifier),
    match result with
    | .ok u => ("url", .string u.href)
    | .error e => ("error", .string e.message)]

/-- The resolutions as they are reported: what goes to the output and what to the errors. -/
def resolutionsText (json : Bool) (results : List (String × Except ResolveError Url)) :
    String × String :=
  if json then
    (unlines [(Json.array (results.map fun (s, r) => resolutionJson s r)).pretty], "")
  else
    (unlines (results.filterMap fun (s, r) => r.toOption.map fun u => s ++ " -> " ++ u.href),
      unlines (results.filterMap fun (_, r) =>
        match r with
        | .ok _ => none
        | .error e => some ("error: " ++ e.message)))

/-- Runs the command in the directory whose absolute path is given by its components. -/
def run (o : Options) (directory : List String) (read : String → Except FileError SourceFile) :
    Report :=
  let base := o.baseUrl.getD (Url.ofPath (directory ++ [""]))
  let referrer := o.referrer.getD base
  match o.loadMap read with
  | .error failure => { errors := unlines ["error: " ++ failure.message], success := false }
  | .ok (importMap, diagnostics) =>
    let resolver : Resolver := { importMap, extension := o.policy }
    let results := o.specifiers.map fun s => (s, resolver.resolve s (some referrer))
    let map :=
      if o.printMap then unlines [((importMap.getD {}).toDocument none).pretty] else ""
    let (output, errors) := resolutionsText o.json results
    { output := map ++ output
      errors := diagnosticsText o.json diagnostics ++ errors
      success := results.all fun (_, r) => r.toOption.isSome }

end ModuleSystem.CommandLine
