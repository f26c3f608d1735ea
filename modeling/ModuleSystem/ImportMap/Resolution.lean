import ModuleSystem.ImportMap.Basic

/-!
# Resolution through an import map

A specifier is looked up in the scopes around its referrer, the innermost first, and then among the
imports. An equal key gives its address; otherwise the longest key that ends with a slash and begins
the specifier gives its address with the rest of the specifier behind it, which must not lead out of
the address again. What no mapping redirects stays what it is, if it is URL-like.
-/

namespace ModuleSystem

/-- Why a specifier has no URL. -/
inductive ResolveError where
  | invalidSpecifier (reason : SpecifierError)
  | unmapped (specifier : String) (referrer : Option Url)
  | invalidMapping (specifier key candidate : String)
  | backtracking (specifier key : String) (address : Url)
deriving DecidableEq

/-- The referrer of a failed import, in brackets. -/
def describeReferrer : Option Url → String
  | some referrer => " (imported from " ++ referrer.href ++ ")"
  | none => ""

/-- The error in words. -/
def ResolveError.message : ResolveError → String
  | invalidSpecifier reason => reason.message
  | unmapped specifier referrer =>
    "bare specifier " ++ Text.quote specifier ++ " is not remapped by the import map"
      ++ describeReferrer referrer
  | invalidMapping specifier key candidate =>
    Text.quote specifier ++ " matched " ++ Text.quote key ++ " but " ++ Text.quote candidate
      ++ " is not a valid URL"
  | backtracking specifier key address =>
    Text.quote specifier ++ " backtracks above " ++ address.href ++ " (mapped by "
      ++ Text.quote key ++ ")"

namespace ImportMap

/-- Whether a scope holds for a referrer. -/
def appliesTo (scope : Scope) (referrer : Url) : Bool :=
  scope.root.href == referrer.href || Specifier.isDirectoryOf scope.root.href referrer.href

/-- The URL of a specifier that begins with `key`, which is mapped to `address`. -/
def substitute (specifier key : String) (address : Url) : Except ResolveError Url :=
  let candidate := address.href ++ Text.dropPrefix key specifier
  match Url.parse candidate with
  | .error _ => .error (.invalidMapping specifier key candidate)
  | .ok u =>
    if Text.isPrefix address.href u.href then .ok u
    else .error (.backtracking specifier key address)

/-- The URL that mappings give for a specifier; nothing if none of them matches. -/
def applyMappings (specifier : String) : Mappings → Except ResolveError (Option Url)
  | [] => .ok none
  | (key, address) :: rest =>
    if key == specifier then .ok (some address)
    else if Specifier.isDirectoryOf key specifier then
      (substitute specifier key address).map some
    else applyMappings specifier rest

/-- The URL that the first of several tables of mappings to match gives. -/
def applyFirst (specifier : String) : List Mappings → Except ResolveError (Option Url)
  | [] => .ok none
  | mappings :: others =>
    match applyMappings specifier mappings with
    | .ok none => applyFirst specifier others
    | found => found

/-- The mappings that hold for a referrer, in the order in which they are asked. -/
def mappingsFor (m : ImportMap) (referrer : Option Url) : List Mappings :=
  let scopes := match referrer with
    | some r => m.scopes.filter fun scope => appliesTo scope r
    | none => []
  scopes.map Scope.mappings ++ [m.imports]

/-- The URL of a specifier that a module at `referrer` imports. -/
def resolve (m : ImportMap) (specifier : String) (referrer : Option Url) :
    Except ResolveError Url :=
  match Specifier.resolve? specifier referrer with
  | .error reason => .error (.invalidSpecifier reason)
  | .ok asUrl =>
    match applyFirst ((asUrl.map Url.href).getD specifier) (m.mappingsFor referrer), asUrl with
    | .error e, _ => .error e
    | .ok (some u), _ => .ok u
    | .ok none, some u => .ok u
    | .ok none, none => .error (.unmapped specifier referrer)

end ImportMap

end ModuleSystem
