/-!
# Tables

A table is a list of entries in ascending order of their keys, no two of which are equal. The order
is a parameter: most tables go by the bytes of their keys, and import maps put long keys first. An
entry whose key is already there is merged with the older one in its place.
-/

namespace ModuleSystem.Table

universe u

variable {α : Type u}

/-- The order of keys by their bytes. -/
def byBytes (a b : String) : Bool :=
  a < b

/-- The table with one more entry; an older entry of the same key is combined with it. -/
def merge (key : α → String) (before : String → String → Bool) (combine : α → α → α) (x : α) :
    List α → List α
  | [] => [x]
  | y :: rest =>
    if key x = key y then combine y x :: rest
    else if before (key x) (key y) then x :: y :: rest
    else y :: merge key before combine x rest

/-- The table of names and values with one more binding, which replaces an older one of its name. -/
def put (before : String → String → Bool) (name : String) (value : α)
    (entries : List (String × α)) : List (String × α) :=
  merge Prod.fst before (fun _ new => new) (name, value) entries

/-- The table of the given bindings, of which a later one replaces an earlier one of its name. -/
def ofList (before : String → String → Bool) (bindings : List (String × α)) :
    List (String × α) :=
  bindings.foldl (fun entries (name, value) => put before name value entries) []

/-- The value bound to a name. -/
def get? (name : String) (entries : List (String × α)) : Option α :=
  entries.lookup name

end ModuleSystem.Table
