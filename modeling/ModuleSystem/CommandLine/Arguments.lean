import ModuleSystem.Url.Parser

/-!
# Arguments of the command line

A flag is written `--name`; one that takes a value has it behind an equals sign or as the next
argument, which may then not look like a flag itself. A flag is given once at most. Two dashes alone
end the flags. Everything else is a specifier to resolve.
-/

namespace ModuleSystem.CommandLine

/-- What the arguments ask for. -/
structure Options where
  specifiers : List String := []
  importMap : Option String := none
  baseUrl : Option Url := none
  referrer : Option Url := none
  defaultExtension : Option String := none
  inferExtension : Bool := false
  printMap : Bool := false
  json : Bool := false
  trace : Bool := false

/-- Why arguments are refused. -/
inductive UsageError where
  | unknownFlag (name : String)
  | repeatedFlag (name : String)
  | missingValue (name : String)
  | unexpectedValue (name : String)
  | invalidUrl (name value : String) (reason : UrlError)
  | exclusiveFlags (first second : String)
deriving DecidableEq, Repr

/-- The error in words. -/
def UsageError.message : UsageError → String
  | unknownFlag name => "unexpected argument " ++ name
  | repeatedFlag name => name ++ " is given more than once"
  | missingValue name => name ++ " needs a value"
  | unexpectedValue name => name ++ " takes no value"
  | invalidUrl name value reason =>
    value ++ " is no value for " ++ name ++ ": " ++ reason.message
  | exclusiveFlags first second => first ++ " cannot be used with " ++ second

namespace Options

/-- The options with a flag that takes no value; nothing if there is no such flag. -/
def switch? (o : Options) (name : String) : Option (Except UsageError Options) :=
  let on (already : Bool) (o : Options) : Option (Except UsageError Options) :=
    some (if already then .error (.repeatedFlag name) else .ok o)
  match name with
  | "--infer-extension" => on o.inferExtension { o with inferExtension := true }
  | "--print-map" => on o.printMap { o with printMap := true }
  | "--json" => on o.json { o with json := true }
  | "--trace" => on o.trace { o with trace := true }
  | _ => none

/-- Whether a flag takes a value. -/
def takesValue (name : String) : Bool :=
  ["--import-map", "--base-url", "--referrer", "--default-extension"].contains name

/-- The options with the value of a flag that takes one. -/
def setValue (o : Options) (name value : String) : Except UsageError Options :=
  let once (already : Bool) (result : Except UsageError Options) : Except UsageError Options :=
    if already then .error (.repeatedFlag name) else result
  let readUrl : Except UsageError Url := (Url.parse value).mapError (.invalidUrl name value)
  match name with
  | "--import-map" =>
    once o.importMap.isSome <|
      if value.isEmpty then .error (.missingValue name) else .ok { o with importMap := some value }
  | "--base-url" => once o.baseUrl.isSome (readUrl.map fun u => { o with baseUrl := some u })
  | "--referrer" => once o.referrer.isSome (readUrl.map fun u => { o with referrer := some u })
  | "--default-extension" =>
    once o.defaultExtension.isSome (.ok { o with defaultExtension := some value })
  | _ => .error (.unknownFlag name)

/-- Whether an argument looks like a flag; a single dash does not. -/
def looksLikeFlag (argument : String) : Bool :=
  Text.isPrefix "-" argument && argument != "-"

/-- The options of the remaining arguments. -/
def readAll (o : Options) : List String → Except UsageError Options
  | [] => .ok o
  | argument :: rest =>
    if !looksLikeFlag argument then
      readAll { o with specifiers := o.specifiers ++ [argument] } rest
    else if argument == "--" then .ok { o with specifiers := o.specifiers ++ rest }
    else
      let chars := argument.toList
      let name := String.ofList (chars.takeWhile (· != '='))
      let attached := chars.dropWhile (· != '=')
      if takesValue name then
        match attached with
        | _ :: value =>
          match o.setValue name (String.ofList value) with
          | .ok o => readAll o rest
          | .error e => .error e
        | [] =>
          match rest with
          | [] => .error (.missingValue name)
          | value :: others =>
            if looksLikeFlag value then .error (.missingValue name)
            else
              match o.setValue name value with
              | .ok o => readAll o others
              | .error e => .error e
      else
        match o.switch? name with
        | none => .error (.unknownFlag name)
        | some (.error e) => .error e
        | some (.ok o) =>
          if attached.isEmpty then readAll o rest else .error (.unexpectedValue name)

/-- Reads arguments. The two flags that set the default extension exclude each other. -/
def parse (arguments : List String) : Except UsageError Options := do
  let o ← ({} : Options).readAll arguments
  if o.inferExtension && o.defaultExtension.isSome then
    throw (.exclusiveFlags "--default-extension" "--infer-extension")
  return o

end Options

end ModuleSystem.CommandLine
