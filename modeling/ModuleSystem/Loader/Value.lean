import ModuleSystem.Number.Text
import ModuleSystem.Table
import ModuleSystem.Text.Affix
import ModuleSystem.Text.Quoted

/-!
# Values and bindings

A module exports values under names. The loader compares values and passes them on, and does not
look into the ones that belong to the host. A namespace is known by the record that owns it, and so
two values are the same exactly when they are equal: a number that is not one equals itself, and
the two zeros differ.

The bindings of a namespace are a table in the order of the bytes of the names.
-/

namespace ModuleSystem.Loader

/-- The number of a module record, in the order in which records were made. -/
abbrev RecordId := Nat

/-- A value that a module exports. -/
inductive Value where
  | undefined
  | null
  | bool (b : Bool)
  | number (x : Number)
  | string (s : String)
  /-- The namespace of a record. -/
  | exports (module : RecordId)
  /-- A value of the host, known by its identity. -/
  | host (identity : String)
deriving DecidableEq

namespace Value

instance : Inhabited Value := ⟨undefined⟩

/-- The number that a value is. -/
def number? : Value → Option Number
  | number x => some x
  | _ => none

/-- The string that a value is. -/
def string? : Value → Option String
  | string s => some s
  | _ => none

/-- The record whose namespace a value is. -/
def exports? : Value → Option RecordId
  | exports module => some module
  | _ => none

/-- The identity of a value of the host. -/
def host? : Value → Option String
  | host identity => some identity
  | _ => none

end Value

/-- The exported names of a module and their values. -/
abbrev Bindings := List (String × Value)

namespace Bindings

/-- The value of a name. -/
def get? (name : String) (bindings : Bindings) : Option Value :=
  Table.get? name bindings

/-- Whether a name is bound. -/
def contains (name : String) (bindings : Bindings) : Bool :=
  (bindings.get? name).isSome

/-- The names in order. -/
def names (bindings : Bindings) : List String :=
  bindings.map Prod.fst

/-- The bindings with `name` bound to `value`, and whether that changes them. -/
def write (name : String) (value : Value) (bindings : Bindings) : Bindings × Bool :=
  if bindings.get? name = some value then (bindings, false)
  else (Table.put Table.byBytes name value bindings, true)

/-- The bindings after one export of a list. Fixed bindings take no new name. -/
def writeUnlessNew (fixed : Bool) (state : Bindings × Bool) (entry : String × Value) :
    Bindings × Bool :=
  let (bindings, changed) := state
  let (name, value) := entry
  if fixed && !bindings.contains name then (bindings, changed)
  else
    let (bindings, changedNow) := bindings.write name value
    (bindings, changed || changedNow)

/-- The bindings after a list of exports, and whether one of them changed anything. -/
def writeAll (fixed : Bool) (entries : List (String × Value)) (bindings : Bindings) :
    Bindings × Bool :=
  entries.foldl (writeUnlessNew fixed) (bindings, false)

end Bindings

/-- A value in one line. Of a namespace only the names are shown, since namespaces may hold each
other. -/
def Value.text (bindings : RecordId → Bindings) : Value → String
  | undefined => "undefined"
  | null => "null"
  | bool b => toString b
  | number x => x.plainText
  | string s => Text.quote s
  | exports module =>
    "\x7b" ++ ", ".intercalate ((bindings module).names.map Text.quote) ++ "\x7d"
  | host identity => "Host(" ++ Text.quote identity ++ ")"

end ModuleSystem.Loader
