import ModuleSystem.Loader.Store
import ModuleSystem.Resolver.Config

/-!
# Configuration of loaders

The configuration of a loader is an object with the member `baseUrl` beside those that configure its
resolver. Unlike a resolver, a loader is not configured by an array.
-/

namespace ModuleSystem

/-- What a loader is made from. -/
structure LoaderConfig where
  baseUrl : Option Url := none
  resolver : ResolverConfig := {}

namespace LoaderConfig

/-- Why there is no loader for a configuration. -/
inductive Error where
  | parse (fault : ConfigFault)
  | resolver (reason : ResolverConfig.Error)
deriving DecidableEq, Repr

/-- The error in words. -/
def Error.message : Error → String
  | parse fault => "invalid loader configuration: " ++ fault.message
  | resolver reason => reason.message

/-- Reads a configuration. -/
def parse (text : String) : Except ConfigFault LoaderConfig := do
  match ← (Json.read text).mapError .notJson with
  | .object members =>
    let baseUrl ← ResolverConfig.uniqueMember? "baseUrl" members
    return { baseUrl := ← ResolverConfig.urlOf "baseUrl" baseUrl
             resolver := ← ResolverConfig.ofMembers members }
  | other => throw (.notConfiguration other.typeName)

/-- The store of a loader with a configuration, which has registered nothing, and the diagnostics of
its import map. -/
def build {C : Type} (config : LoaderConfig) :
    Except Error (Loader.Store C × List Diagnostic) :=
  match config.resolver.build config.baseUrl with
  | .error reason => .error (.resolver reason)
  | .ok (resolver, diagnostics) => .ok ({ base := config.baseUrl, resolver }, diagnostics)

end LoaderConfig

end ModuleSystem
