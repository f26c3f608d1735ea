import ModuleSystem.Json.Basic
import ModuleSystem.Specifier

/-!
# Default extensions

A policy says which extension a resolved URL is given when the last segment of its path has none:
none at all, that of the referrer, or a fixed text. Opaque URLs and directories are left alone.
-/

namespace ModuleSystem

/-- What is added to a URL without an extension. -/
inductive ExtensionPolicy where
  | disabled
  | infer
  | fixed (extension : String)
deriving DecidableEq, Repr

namespace ExtensionPolicy

instance : Inhabited ExtensionPolicy := ⟨disabled⟩

/-- The policy that a configuration names: a flag switches the inference, a string is fixed. -/
def ofJson? : Json → Option ExtensionPolicy
  | .bool false => some disabled
  | .bool true => some infer
  | .string s => some (if s.isEmpty then disabled else fixed s)
  | _ => none

/-- A policy as a configuration names it. -/
def toJson : ExtensionPolicy → Json
  | disabled => .bool false
  | infer => .bool true
  | fixed extension => .string extension

/-- The extension that the policy gives for a referrer; empty if none. -/
def extensionFor (policy : ExtensionPolicy) (referrer : Option Url) : String :=
  match policy, referrer with
  | disabled, _ => ""
  | fixed extension, _ => extension
  | infer, some r => Specifier.extension r.path
  | infer, none => ""

/-- The URL with the policy's extension added to its path, unless it is opaque, a directory or has
an extension. -/
def apply (policy : ExtensionPolicy) (u : Url) (referrer : Option Url) : Url :=
  let extension := policy.extensionFor referrer
  if u.isOpaque || Text.endsWithChar u.path '/' || Specifier.extension u.path != ""
      || extension == "" then u
  else u.withPath (u.path ++ extension)

end ExtensionPolicy

end ModuleSystem
