import ModuleSystem.Extension
import ModuleSystem.ImportMap.Resolution

/-!
# Resolvers

A resolver turns specifiers into URLs: through an import map if it has one, as plain references
otherwise, and in the end with the default extension.
-/

namespace ModuleSystem

/-- An import map, if any, and a policy for URLs without an extension. -/
structure Resolver where
  importMap : Option ImportMap := none
  extension : ExtensionPolicy := .disabled

namespace Resolver

instance : Inhabited Resolver := ⟨{}⟩

/-- The URL of a specifier that a module at `referrer` imports. -/
def resolve (r : Resolver) (specifier : String) (referrer : Option Url) :
    Except ResolveError Url := do
  let u ← match r.importMap with
    | some m => m.resolve specifier referrer
    | none => (Specifier.resolvePlain specifier referrer).mapError .invalidSpecifier
  return r.extension.apply u referrer

end Resolver

end ModuleSystem
