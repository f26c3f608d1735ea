import ModuleSystem.Proofs.ImportMap.Entries
import ModuleSystem.Proofs.ImportMap.Reference
import ModuleSystem.Proofs.Url.Containment

/-!
# Directories stay what they are mapped to

A key that ends with a slash leads all specifiers below it to URLs below its address. The URL is
read from the address with the rest of the specifier behind it, and has to begin with the address as
a text. That keeps it on the host and below the path of the address, unless the address ends where
the rest can make an authority of itself.

## Main definitions

* `ImportMap.LeadsBelow` : the entry that decides for a specifier has a key that only begins it.

## Main results

* `ImportMap.MadeFrom.resolve_within` : what a map answers below a key has the scheme, the authority
  and the beginning of the path of the key's address, if that is not open-ended.
-/

namespace ModuleSystem.ImportMap

variable {m : ImportMap} {specifier s key : String} {referrer : Option Url} {address u : Url}

/-- The entry that decides for a specifier has a key that only begins it. -/
structure LeadsBelow (m : ImportMap) (specifier : String) (referrer : Option Url) (key : String)
    (address : Url) : Prop where
  entry : ∃ asUrl mappings, Specifier.resolve? specifier referrer = .ok asUrl ∧
    m.Speaks referrer ((asUrl.map Url.href).getD specifier) mappings ∧
    mappings.Decides ((asUrl.map Url.href).getD specifier) key address ∧
    key ≠ (asUrl.map Url.href).getD specifier

/-- What is answered below a key is read from a text that begins with the address, and its written
form begins with the address as well. -/
theorem Gives.below_of_ne (h : Gives key address s (.ok u)) (proper : key ≠ s) :
    (∃ text, Url.parse text = .ok u) ∧ ∃ tail, u.href = address.href ++ tail := by
  cases h with
  | whole => exact absurd rfl proper
  | below _ parsed inside => exact ⟨⟨_, parsed⟩, inside⟩

/-- The mappings that speak for a specifier are the imports or those of a scope. -/
theorem Speaks.all {P : String → Url → Prop} {mappings : Mappings} (h : m.Speaks referrer s mappings)
    (all : m.All P) : ∀ entry ∈ mappings, P entry.1 entry.2 := by
  cases h with
  | scope mem => exact all.scopes _ mem
  | imports => exact all.imports

/-- All addresses of maps whose documents stand at URLs that are read are read themselves. -/
theorem MadeFrom.isRead (made : MadeFrom (fun _ base => base.IsRead) m) :
    m.All fun _ address => address.IsRead := by
  refine made.all fun document base isRead specifier address _ key u read => ?_
  obtain ⟨-, ⟨text, -, resolved⟩, -⟩ := readEntry_eq_ok_iff.mp read
  rw [Specifier.resolveAgainst] at resolved
  cases joined : base.join text with
  | error reason => simp [joined, Except.mapError] at resolved
  | ok v =>
    obtain rfl : v = u := by simpa [joined, Except.mapError] using resolved
    exact .join isRead joined

/-- What a map answers below a key has the scheme, the user name, the password, the host and the
port of the key's address, and its path begins with the path of the address. -/
theorem MadeFrom.resolve_within (made : MadeFrom (fun _ base => base.IsRead) m)
    (below : m.LeadsBelow specifier referrer key address) (closed : ¬ address.IsOpenEnded)
    (answer : m.resolve specifier referrer = .ok u) :
    u.scheme = address.scheme ∧ u.authority = address.authority ∧
      ∃ rest, u.path = address.path ++ rest := by
  obtain ⟨asUrl, mappings, resolved, speaks, decides, proper⟩ := below.entry
  obtain ⟨result, gives⟩ := exists_gives address decides.fits
  have same := made.made.ordered.resolve_eq (.mapped resolved speaks decides gives)
  obtain rfl : result = .ok u := same.symm.trans answer
  obtain ⟨⟨text, parsed⟩, tail, inside⟩ := gives.below_of_ne proper
  have isRead := speaks.all made.isRead _ decides.mem
  exact isRead.shaped.within (Url.IsRead.parse parsed).shaped closed inside

/-- Behind an open-ended address, the rest of a specifier can name a host. -/
example : substitute "lib//h/x" "lib/" { scheme := "x", path := "/" } =
    .ok { scheme := "x", authority := some { host := "h" }, path := "/x" } := rfl

/-- A document that maps the directory `lib/` to `./vendor/`. -/
def vendorDocument : Json :=
  .object [("imports", .object [("lib/", .string "./vendor/")])]

/-- The URL of a path on the host `h`. -/
def hostUrl (path : String) : Url :=
  { scheme := "https", authority := some { host := "h" }, path }

theorem MadeFrom.resolve_within_vendor :
    ∃ m : ImportMap, MadeFrom (fun _ base => base.IsRead) m ∧
      m.LeadsBelow "lib/sub/../a" none "lib/" (hostUrl "/app/vendor/") ∧
      ¬ (hostUrl "/app/vendor/").IsOpenEnded ∧
      m.resolve "lib/sub/../a" none = .ok (hostUrl "/app/vendor/a") ∧
      ((hostUrl "/app/vendor/a").scheme = (hostUrl "/app/vendor/").scheme ∧
        (hostUrl "/app/vendor/a").authority = (hostUrl "/app/vendor/").authority ∧
        ∃ rest, (hostUrl "/app/vendor/a").path = (hostUrl "/app/vendor/").path ++ rest) := by
  have base : (hostUrl "/app/main").IsRead := .parse (s := "https://h/app/main") rfl
  let m : ImportMap := { imports := [("lib/", hostUrl "/app/vendor/")] }
  have made : MadeFrom (fun _ base => base.IsRead) m :=
    .normalized base (show normalize vendorDocument (hostUrl "/app/main") = .ok (m, []) from rfl)
  have fits : Specifier.Fits "lib/" "lib/sub/../a" := .inr ⟨⟨"lib", rfl⟩, "sub/../a", rfl⟩
  have below : m.LeadsBelow "lib/sub/../a" none "lib/" (hostUrl "/app/vendor/") :=
    ⟨none, m.imports, rfl, .imports (by simp [m]) ⟨_, List.mem_cons_self, fits⟩,
      .of_longest List.mem_cons_self fits (by simp [m]), by decide⟩
  have closed : ¬ (hostUrl "/app/vendor/").IsOpenEnded := by simp [Url.IsOpenEnded, hostUrl]
  have answer : m.resolve "lib/sub/../a" none = .ok (hostUrl "/app/vendor/a") := rfl
  exact ⟨m, made, below, closed, answer, made.resolve_within below closed answer⟩

end ModuleSystem.ImportMap
