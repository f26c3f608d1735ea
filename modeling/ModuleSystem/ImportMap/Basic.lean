import ModuleSystem.Specifier

/-!
# Import maps

An import map redirects specifiers. Its mappings lead from keys, which are bare specifiers or
absolute URLs in their written form, to addresses; its scopes hold further mappings for the modules
below a URL. Mappings and scopes are tables in the order `Specifier.keyBefore`: the longest key
comes first, so that the first match is the most specific one.
-/

namespace ModuleSystem

/-- Keys and their addresses. -/
abbrev Mappings := List (String × Url)

namespace Mappings

/-- The mappings with one more entry, which replaces an older one of its key. -/
def put (key : String) (address : Url) (mappings : Mappings) : Mappings :=
  Table.put Specifier.keyBefore key address mappings

/-- The address of a key. -/
def get? (key : String) (mappings : Mappings) : Option Url :=
  Table.get? key mappings

/-- The mappings with all entries of `upper`, which win over those of `lower`. -/
def overlay (lower upper : Mappings) : Mappings :=
  upper.foldl (fun mappings (key, address) => mappings.put key address) lower

end Mappings

/-- The mappings for the modules at or below a URL. -/
structure Scope where
  root : Url
  mappings : Mappings
deriving DecidableEq

/-- The scopes with one more; with an older one of its root it is merged, and its entries win. -/
def Scope.putInto (scope : Scope) (scopes : List Scope) : List Scope :=
  Table.merge (fun s => s.root.href) Specifier.keyBefore
    (fun old new => { old with mappings := old.mappings.overlay new.mappings }) scope scopes

/-- A normalized import map. -/
structure ImportMap where
  imports : Mappings := []
  scopes : List Scope := []
deriving DecidableEq

namespace ImportMap

instance : Inhabited ImportMap := ⟨{}⟩

/-- Whether the map redirects nothing and has no scope. -/
def isEmpty (m : ImportMap) : Bool :=
  m.imports.isEmpty && m.scopes.isEmpty

/-- The map that has the entries of both maps, those of `upper` winning. -/
def compose (lower upper : ImportMap) : ImportMap where
  imports := lower.imports.overlay upper.imports
  scopes := upper.scopes.foldl (fun scopes scope => scope.putInto scopes) lower.scopes

end ImportMap

end ModuleSystem
