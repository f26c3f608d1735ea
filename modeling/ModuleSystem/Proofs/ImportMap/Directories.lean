import ModuleSystem.Proofs.ImportMap.Entries
import ModuleSystem.Proofs.ImportMap.Reference

/-!
# Keys that name directories

A key that ends with a slash stands for all specifiers below it, and should lead to an address that
ends with a slash as well. Whether it does is decided when a document is read, by the specifier as
it is written there. A URL-like specifier can come to end with a slash only when it is resolved, as
`.` does, and so escape the test; a bare one cannot.

## Main definitions

* `ImportMap.KeepsSlashes` : no specifier of a document comes to end with a slash only when it is
  resolved.
* `ImportMap.KeepsDirectory` : an address ends with a slash if its key does.

## Main results

* `ImportMap.MadeFrom.keepsDirectory` : the keys that end with a slash have addresses that do, in
  all maps that are made from documents that keep their slashes.
-/

namespace ModuleSystem.ImportMap

/-- No URL-like specifier of the document comes to end with a slash only when it is resolved. -/
def KeepsSlashes (document : Json) (base : Url) : Prop :=
  ∀ specifier address, Writes document specifier address → Specifier.isUrlLike specifier →
    Text.endsWithChar (normalizedKey base specifier) '/' → Text.endsWithChar specifier '/'

/-- An address ends with a slash if its key does. -/
def KeepsDirectory (key : String) (address : Url) : Prop :=
  Text.endsWithChar key '/' → Text.endsWithChar address.href '/'

/-- A bare specifier is its own key. -/
theorem normalizedKey_of_bare {base : Url} {specifier : String}
    (bare : ¬ Specifier.isUrlLike specifier) : normalizedKey base specifier = specifier := by
  have bare : Specifier.isUrlLike specifier = false := by simpa using bare
  have schemeless : Specifier.hasScheme specifier = false := by
    simp only [Specifier.isUrlLike, Bool.or_eq_false_iff] at bare
    exact bare.2
  simp [normalizedKey, Specifier.resolve?, schemeless, bare]

/-- In the maps that are made from documents that keep their slashes, the keys that end with a slash
have addresses that do, among the imports and in all scopes. -/
theorem MadeFrom.keepsDirectory {m : ImportMap} (made : MadeFrom KeepsSlashes m) :
    m.All KeepsDirectory := by
  refine made.all fun document base keeps specifier address written key u read slash => ?_
  obtain ⟨-, -, directory, rfl⟩ := readEntry_eq_ok_iff.mp read
  by_cases urlLike : Specifier.isUrlLike specifier
  · exact directory (keeps specifier address written urlLike slash)
  · exact directory (normalizedKey_of_bare urlLike ▸ slash)

/-- A document that maps the directories `./lib/` and `lib/`, the latter only below `x:/app/`. -/
def mirrorDocument : Json :=
  .object [("imports", .object [("./lib/", .string "x:/mirror/")]),
    ("scopes", .object [("x:/app/", .object [("lib/", .string "x:/own/")])])]

theorem MadeFrom.keepsDirectory_mirror :
    MadeFrom KeepsSlashes (ofDocument mirrorDocument) ∧
    (ofDocument mirrorDocument).All KeepsDirectory ∧
    (ofDocument mirrorDocument).imports = [("x:/lib/", pathUrl "/mirror/")] ∧
    Text.endsWithChar (pathUrl "/mirror/").href '/' := by
  have keeps : KeepsSlashes mirrorDocument (pathUrl "/") := by
    rintro specifier address (⟨imports, mem⟩ | ⟨scopes, body, mem⟩) - -
    · cases imports
      obtain rfl : specifier = "./lib/" := by simpa using congrArg Prod.fst (List.mem_singleton.mp mem)
      rfl
    · cases scopes
      cases List.mem_singleton.mp body
      obtain rfl : specifier = "lib/" := by simpa using congrArg Prod.fst (List.mem_singleton.mp mem)
      rfl
  have read : normalize mirrorDocument (pathUrl "/") =
      .ok (ofDocument mirrorDocument, []) := rfl
  have made : MadeFrom KeepsSlashes (ofDocument mirrorDocument) := .normalized keeps read
  have entries : (ofDocument mirrorDocument).imports = [("x:/lib/", pathUrl "/mirror/")] := rfl
  have all := made.keepsDirectory
  exact ⟨made, all, entries, all.imports ("x:/lib/", pathUrl "/mirror/")
    (entries ▸ List.mem_singleton.mpr rfl) rfl⟩

end ModuleSystem.ImportMap
