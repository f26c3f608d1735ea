import ModuleSystem.Loader.Host

/-!
# Contexts and registrations in words

One-line descriptions for whoever watches a host at work.
-/

namespace ModuleSystem.Loader

/-- A record with named fields in one line. -/
def describeFields (name : String) (fields : List (String × String)) : String :=
  let field : String × String → String := fun (key, text) => key ++ ": " ++ text
  name ++ " \x7b " ++ ", ".intercalate (fields.map field) ++ " \x7d"

/-- A list in one line. -/
def describeList (items : List String) : String :=
  "[" ++ ", ".intercalate items ++ "]"

/-- A context in one line. -/
def ModuleContext.describe (context : ModuleContext) : String :=
  let referrer := match context.referrer with
    | some referrer => "Some(" ++ Text.quote referrer.href ++ ")"
    | none => "None"
  describeFields "ModuleContext" [("url", Text.quote context.url.href), ("referrer", referrer)]

/-- What publishes the values of a module, in one line; `index` is the number of its record among
those of its loader. -/
def describeExporter (index : Nat) : String :=
  describeFields "Exporter" [("module", "ModuleId(" ++ toString index ++ ")")]

/-- A registration in one line. -/
def Registration.describe {C : Type} (r : Registration C) : String :=
  describeFields "Registration" [
    ("dependencies", describeList (r.dependencies.map Text.quote)),
    ("setters", describeList (r.setters.map fun setter => toString setter.isSome)),
    ("execute", toString r.body.isSome)]

end ModuleSystem.Loader
