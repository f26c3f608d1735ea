import Mathlib.Data.List.Basic
import Mathlib.Data.List.Nodup
import Mathlib.Data.List.Forall2
import Mathlib.Data.List.Perm.Subperm
import Mathlib.Data.List.Range
import ModuleSystem.Loader.Encoding
import ModuleSystem.Proofs.Loader.Store
import ModuleSystem.Proofs.Table

/-!
# Namespaces in encodings

An encoding writes a namespace out where it is met first and refers to it by its number everywhere
else. Whatever the namespaces hold, themselves and each other among it, all that a value leads to is
written out, once, and under numbers that ascend in the order of a depth-first visit.

The proof goes through the parts of an encoding. A part starts when some namespaces have been
written out and ends with more of them; the numbers that it gives follow those given before, and
what it refers to has been written out before it or earlier within it. Parts that follow each other
make up a part, and so does a namespace with the part in which its bindings are written. The depth
suffices as long as there are fewer namespaces with exports left than that.

## Main definitions

* `Reaches` : the namespaces that a value leads to.
* `Visits` : the order in which a depth-first visit comes to namespaces for the first time.
* `marks` : the namespaces in an encoding, written out or referred to, in the order of the text.
* `Shows` : what stands in an encoding for a value.
* `Unfolds` : an encoding that writes out what a value leads to, each namespace once.

## Main results

* `encodeValue_spec` : what a part of an encoding does.
* `encodeValue_unfolds` : the encoding of a value unfolds it, if the depth suffices.
* `Store.deep` : a greater depth than there are records suffices.
-/

namespace ModuleSystem.Loader

variable {b : RecordId → Bindings} {v : Value} {r t : RecordId} {json : Json}
  {order met mid after : List RecordId}

/-- A value leads to a namespace: it is the namespace, or one with an export that leads there. -/
inductive Reaches (b : RecordId → Bindings) : Value → RecordId → Prop
  | here (r : RecordId) : Reaches b (.exports r) r
  | through {r t name v} (mem : (name, v) ∈ b r) (rest : Reaches b v t) : Reaches b (.exports r) t

theorem Reaches.trans (h : Reaches b v r) (h' : Reaches b (.exports r) t) : Reaches b v t := by
  induction h with
  | here => exact h'
  | through mem _ ih => exact .through mem (ih h')

/-- Values are visited one after the other, and a namespace is followed by the values of its exports
if it is visited for the first time; `seen` are the namespaces in the order of their first visits.
-/
inductive Visits (b : RecordId → Bindings) : List RecordId → List Value → List RecordId → Prop
  | nil (seen) : Visits b seen [] seen
  | plain {seen v values after} (plain : ∀ r, v ≠ .exports r) (rest : Visits b seen values after) :
      Visits b seen (v :: values) after
  | again {seen r values after} (old : r ∈ seen) (rest : Visits b seen values after) :
      Visits b seen (.exports r :: values) after
  | first {seen r between values after} (new : r ∉ seen)
      (exports : Visits b (seen ++ [r]) ((b r).map Prod.snd) between)
      (rest : Visits b between values after) : Visits b seen (.exports r :: values) after

theorem Visits.cons {values : List Value} (h : Visits b met [v] mid)
    (h' : Visits b mid values after) : Visits b met (v :: values) after := by
  cases h with
  | plain plain rest =>
    cases rest
    exact .plain plain h'
  | again old rest =>
    cases rest
    exact .again old h'
  | first new exports rest =>
    cases rest
    exact .first new exports h'

/-- Visits lead to what the visited values lead to. -/
theorem Visits.reached {values : List Value} (h : Visits b met values after) :
    ∀ r ∈ after, r ∈ met ∨ ∃ v ∈ values, Reaches b v r := by
  induction h with
  | nil => exact fun r mem => .inl mem
  | plain _ _ ih | again _ _ ih =>
    intro r mem
    exact (ih r mem).imp_right fun ⟨v, hv, reaches⟩ => ⟨v, List.mem_cons_of_mem _ hv, reaches⟩
  | @first seen t between values after _ _ _ inner outer =>
    intro r mem
    rcases outer r mem with old | ⟨v, hv, reaches⟩
    · rcases inner r old with older | ⟨v, hv, reaches⟩
      · rcases List.mem_append.mp older with older | last
        · exact .inl older
        · rw [List.mem_singleton.mp last]
          exact .inr ⟨_, List.mem_cons_self, .here t⟩
      · obtain ⟨⟨name, w⟩, bound, rfl⟩ := List.mem_map.mp hv
        exact .inr ⟨_, List.mem_cons_self, .through bound reaches⟩
    · exact .inr ⟨v, List.mem_cons_of_mem _ hv, reaches⟩

/-! ### Marks -/

/-- A place in an encoding at which there is a namespace. -/
inductive Mark where
  | opens (number : Nat) (members : List (String × Json))
  | refers (number : Nat)

/-- The number that a mark gives to a namespace. -/
def Mark.opened? : Mark → Option Nat
  | opens number _ => some number
  | refers _ => none

mutual

/-- The namespaces in an encoding, in the order of the text. -/
def marks : Json → List Mark
  | .object [("$namespace", .int (.ofNat number)), ("exports", .object members)] =>
    .opens number members :: memberMarks members
  | .object [("$ref", .int (.ofNat number))] => [.refers number]
  | _ => []

def memberMarks : List (String × Json) → List Mark
  | [] => []
  | (_, json) :: rest => marks json ++ memberMarks rest

end

theorem marks_numberJson (x : Number) : marks (numberJson x) = [] := by
  rcases x with _ | (_ | _) | _ <;> rfl

/-- What stands in an encoding for a value, where `order` are the namespaces by their numbers. -/
inductive Shows (order : List RecordId) : Value → Json → Prop
  | undefined : Shows order .undefined (typedJson "undefined" [])
  | null : Shows order .null .null
  | bool (x : Bool) : Shows order (.bool x) (.bool x)
  | number (x : Number) : Shows order (.number x) (numberJson x)
  | string (x : String) : Shows order (.string x) (.string x)
  | host (identity : String) : Shows order (.host identity) (typedJson "host" [])
  | opens {r number members} (found : order[number]? = some r) :
      Shows order (.exports r) (namespaceJson number members)
  | refers {r number} (found : order[number]? = some r) :
      Shows order (.exports r) (referenceJson number)

/-- What stands in an encoding for the bindings of a namespace. -/
def ShowsAll (order : List RecordId) : Bindings → List (String × Json) → Prop :=
  List.Forall₂ fun binding member => binding.1 = member.1 ∧ Shows order binding.2 member.2

theorem getElem?_mono {number : Nat} (grows : mid <+: after) (found : mid[number]? = some r) :
    after[number]? = some r := by
  obtain ⟨new, rfl⟩ := grows
  rw [List.getElem?_append_left (List.getElem?_eq_some_iff.mp found).1]
  exact found

theorem Shows.mono (h : Shows mid v json) (grows : mid <+: after) : Shows after v json := by
  cases h with
  | opens found => exact .opens (getElem?_mono grows found)
  | refers found => exact .refers (getElem?_mono grows found)
  | _ => constructor

/-! ### A part of an encoding -/

/-- What happens while a part of an encoding is written: `met` are the namespaces that have been
written out before it, and `after` those that have been written out when it ends. -/
structure Part (b : RecordId → Bindings) (met after : List RecordId) (seen : List Mark) : Prop where
  grows : met <+: after
  nodup : after.Nodup
  opened : seen.filterMap Mark.opened? = List.range' met.length (after.length - met.length)
  expands : ∀ number members, .opens number members ∈ seen →
    ∃ r, after[number]? = some r ∧ ShowsAll after (b r) members
  earlier : ∀ before number rest, seen = before ++ .refers number :: rest →
    number < met.length ∨ ∃ members, .opens number members ∈ before

theorem Part.nil (nodup : met.Nodup) : Part b met met [] where
  grows := List.prefix_rfl
  nodup := nodup
  opened := by simp
  expands := nofun
  earlier := by simp

theorem mem_of_mem_opened {seen : List Mark} {number : Nat}
    (h : number ∈ seen.filterMap Mark.opened?) : ∃ members, .opens number members ∈ seen := by
  obtain ⟨mark, mem, same⟩ := List.mem_filterMap.mp h
  cases mark with
  | opens _ members =>
    cases same
    exact ⟨members, mem⟩
  | refers => cases same

theorem Part.opens_of_lt {seen : List Mark} {number : Nat} (h : Part b met after seen)
    (lt : number < after.length) :
    number < met.length ∨ ∃ members, .opens number members ∈ seen := by
  by_cases old : number < met.length
  · exact .inl old
  · have mem : number ∈ seen.filterMap Mark.opened? := by
      rw [h.opened, List.mem_range'_1]
      omega
    exact .inr (mem_of_mem_opened mem)

/-- A part that is followed by another one. -/
theorem Part.append {seen others : List Mark} (h : Part b met mid seen)
    (h' : Part b mid after others) : Part b met after (seen ++ others) where
  grows := h.grows.trans h'.grows
  nodup := h'.nodup
  opened := by
    obtain ⟨new, rfl⟩ := h.grows
    obtain ⟨new', rfl⟩ := h'.grows
    rw [List.filterMap_append, h.opened, h'.opened]
    simp only [List.length_append, Nat.add_sub_cancel_left, Nat.add_assoc]
    rw [← Nat.add_assoc, Nat.add_sub_cancel_left, List.range'_append_1]
  expands := by
    intro number members mem
    rcases List.mem_append.mp mem with mem | mem
    · obtain ⟨r, found, shows⟩ := h.expands number members mem
      exact ⟨r, getElem?_mono h'.grows found,
        shows.imp fun _ _ same => ⟨same.1, same.2.mono h'.grows⟩⟩
    · exact h'.expands number members mem
  earlier := by
    intro before number rest split
    have later (between : List Mark) (mine : others = between ++ .refers number :: rest) :
        number < met.length ∨ ∃ members, .opens number members ∈ seen ++ between := by
      rcases h'.earlier between number rest mine with old | ⟨members, mem⟩
      · exact (h.opens_of_lt old).imp_right fun ⟨members, mem⟩ =>
          ⟨members, List.mem_append_left _ mem⟩
      · exact .inr ⟨members, List.mem_append_right _ mem⟩
    rcases List.append_eq_append_iff.mp split with ⟨between, rfl, mine⟩ | ⟨between, rfl, mine⟩
    · exact later between mine
    · cases between with
      | nil => simpa using later [] mine.symm
      | cons mark between =>
        obtain ⟨rfl, -⟩ := List.cons.inj mine
        exact h.earlier before number between rfl

/-- A namespace that has been met before. -/
theorem Part.refer {number : Nat} (nodup : met.Nodup) (found : met[number]? = some r) :
    Part b met met [.refers number] where
  grows := List.prefix_rfl
  nodup := nodup
  opened := by simp [Mark.opened?]
  expands := by simp
  earlier := by
    intro before n rest split
    cases before with
    | nil =>
      obtain ⟨⟨⟩, -⟩ := List.cons.inj split
      exact .inl (List.getElem?_eq_some_iff.mp found).1
    | cons => simp at split

/-- A namespace that is written out. -/
theorem Part.open {members : List (String × Json)} {seen : List Mark}
    (h : Part b (met ++ [r]) after seen) (shows : ShowsAll after (b r) members) :
    Part b met after (.opens met.length members :: seen) where
  grows := (List.prefix_append met [r]).trans h.grows
  nodup := h.nodup
  opened := by
    obtain ⟨new, rfl⟩ := h.grows
    rw [List.filterMap_cons, h.opened]
    simp only [List.length_append, Nat.add_assoc, Nat.add_sub_cancel_left]
    rw [← Nat.add_assoc, Nat.add_sub_cancel_left, List.length_singleton, Nat.add_comm 1,
      List.range'_succ]
    rfl
  expands := by
    intro number members' mem
    rcases List.mem_cons.mp mem with same | mem
    · cases same
      exact ⟨r, getElem?_mono h.grows (by simp), shows⟩
    · exact h.expands number members' mem
  earlier := by
    intro before number rest split
    cases before with
    | nil => exact nomatch (List.cons.inj split).1
    | cons mark before =>
      obtain ⟨rfl, behind⟩ := List.cons.inj split
      rcases h.earlier before number rest behind with old | ⟨members, mem⟩
      · rw [List.length_append, List.length_singleton] at old
        rcases (Nat.lt_succ_iff.mp old).lt_or_eq with old | rfl
        · exact .inl old
        · exact .inr ⟨members, List.mem_cons_self⟩
      · exact .inr ⟨members, List.mem_cons_of_mem _ mem⟩

/-! ### Depth -/

/-- Fewer than `depth` namespaces that have exports are left to be written out. -/
def Deep (b : RecordId → Bindings) (depth : Nat) (met : List RecordId) : Prop :=
  ∀ left : List RecordId, left.Nodup → (∀ r ∈ left, b r ≠ [] ∧ r ∉ met) → left.length < depth

variable {depth : Nat}

theorem Deep.mono (h : Deep b depth met) (grows : met <+: after) : Deep b depth after :=
  fun left nodup unmet => h left nodup fun r mem =>
    ⟨(unmet r mem).1, fun old => (unmet r mem).2 (grows.subset old)⟩

theorem Deep.open (h : Deep b (depth + 1) met) (new : r ∉ met) (exports : b r ≠ []) :
    Deep b depth (met ++ [r]) := by
  intro left nodup unmet
  have unmet' : ∀ t ∈ r :: left, b t ≠ [] ∧ t ∉ met := by
    intro t mem
    rcases List.mem_cons.mp mem with rfl | mem
    · exact ⟨exports, new⟩
    · exact ⟨(unmet t mem).1, fun old => (unmet t mem).2 (List.mem_append_left _ old)⟩
  have other : r ∉ left := fun mem => (unmet r mem).2 (by simp)
  exact Nat.lt_of_succ_lt_succ (h (r :: left) (List.nodup_cons.mpr ⟨other, nodup⟩) unmet')

theorem Deep.ne_zero (h : Deep b depth met) : depth ≠ 0 := by
  have := h [] List.nodup_nil nofun
  omega

/-- Only records have exports, so that a greater depth than there are records suffices. -/
theorem Store.deep {C : Type} {s : Store C} (h : s.records.size < depth) (met : List RecordId) :
    Deep s.bindings depth met := by
  intro left nodup unmet
  have within : left ⊆ List.range s.records.size := by
    intro r mem
    rw [List.mem_range]
    by_contra beyond
    refine (unmet r mem).1 ?_
    rw [Store.bindings, Store.record_of_size_le (Nat.not_lt.mp beyond)]
    rfl
  have count := (List.subperm_of_subset nodup within).length_le
  rw [List.length_range] at count
  exact Nat.lt_of_le_of_lt count h

/-! ### Encodings -/

theorem encodeValue_of_met {number : Nat} (h : met.idxOf? r = some number) :
    encodeValue b depth (.exports r) met = (referenceJson number, met) := by
  cases depth <;> simp only [encodeValue, h]

theorem encodeValue_of_new (h : r ∉ met) :
    encodeValue b (depth + 1) (.exports r) met =
      (namespaceJson met.length (encodeMembers (encodeValue b depth) (b r) (met ++ [r])).1,
        (encodeMembers (encodeValue b depth) (b r) (met ++ [r])).2) := by
  simp only [encodeValue, List.idxOf?_eq_none_iff.mpr h]

/-- A value is encoded as what shows it, and the namespaces that are written out then are those that
are visited for the first time. -/
structure Encodes (b : RecordId → Bindings) (v : Value) (met : List RecordId)
    (result : Json × List RecordId) : Prop where
  part : Part b met result.2 (marks result.1)
  shows : Shows result.2 v result.1
  visits : Visits b met [v] result.2

/-- Bindings are encoded as what shows them. -/
structure EncodesAll (b : RecordId → Bindings) (bindings : Bindings) (met : List RecordId)
    (result : List (String × Json) × List RecordId) : Prop where
  part : Part b met result.2 (memberMarks result.1)
  shows : ShowsAll result.2 bindings result.1
  visits : Visits b met (bindings.map Prod.snd) result.2

/-- The bindings of a namespace are encoded one after the other. -/
theorem encodeMembers_spec {encode : Value → List RecordId → Json × List RecordId}
    (each : ∀ v met, met.Nodup → Deep b depth met → Encodes b v met (encode v met))
    (bindings : Bindings) (nodup : met.Nodup) (deep : bindings ≠ [] → Deep b depth met) :
    EncodesAll b bindings met (encodeMembers encode bindings met) := by
  induction bindings generalizing met with
  | nil => exact ⟨.nil nodup, .nil, .nil met⟩
  | cons binding bindings ih =>
    obtain ⟨name, v⟩ := binding
    have deep := deep (List.cons_ne_nil _ _)
    have first := each v met nodup deep
    have rest := ih first.part.nodup fun _ => deep.mono first.part.grows
    exact ⟨first.part.append rest.part,
      .cons ⟨rfl, first.shows.mono rest.part.grows⟩ rest.shows,
      first.visits.cons rest.visits⟩

/-- What leads to no namespace is encoded without one. -/
theorem Encodes.plain (nodup : met.Nodup) (plain : ∀ r, v ≠ .exports r) (none : marks json = [])
    (shows : Shows met v json) : Encodes b v met (json, met) where
  part := none ▸ .nil nodup
  shows := shows
  visits := .plain plain (.nil met)

/-- A value is encoded with the namespaces that it leads to, if the depth suffices. -/
theorem encodeValue_spec (v : Value) (nodup : met.Nodup) (deep : Deep b depth met) :
    Encodes b v met (encodeValue b depth v met) := by
  induction depth generalizing v met with
  | zero => exact absurd rfl deep.ne_zero
  | succ depth ih =>
    cases v with
    | exports r =>
      cases found : met.idxOf? r with
      | some number =>
        obtain ⟨lt, same, -⟩ := List.findIdx?_eq_some_iff_getElem.mp found
        have at_number : met[number]? = some r := by
          rw [List.getElem?_eq_getElem lt, beq_iff_eq.mp same]
        rw [encodeValue_of_met found]
        exact ⟨.refer nodup at_number, .refers at_number,
          .again (List.mem_of_getElem? at_number) (.nil met)⟩
      | none =>
        have new : r ∉ met := List.idxOf?_eq_none_iff.mp found
        have nodup' : (met ++ [r]).Nodup := by
          rw [List.nodup_append_comm]
          exact List.nodup_cons.mpr ⟨new, nodup⟩
        have members := encodeMembers_spec (fun v met => ih v) (b r) nodup'
          fun exports => deep.open new exports
        rw [encodeValue_of_new new]
        exact ⟨members.part.open members.shows,
          .opens (getElem?_mono members.part.grows (by simp)),
          .first new members.visits (.nil _)⟩
    | undefined => exact .plain nodup nofun rfl .undefined
    | null => exact .plain nodup nofun rfl .null
    | bool x => exact .plain nodup nofun rfl (.bool x)
    | number x => exact .plain nodup nofun (marks_numberJson x) (.number x)
    | string x => exact .plain nodup nofun rfl (.string x)
    | host identity => exact .plain nodup nofun rfl (.host identity)

/-! ### Whole encodings -/

/-- An encoding writes out every namespace that a value leads to, once and under the number of its
place in `order`, the order in which the namespaces are visited first: depth first, and by name
within a namespace. The numbers ascend in the text, and where a namespace is referred to by its
number, it has been written out before. -/
structure Unfolds (b : RecordId → Bindings) (v : Value) (json : Json) (order : List RecordId) :
    Prop where
  shows : Shows order v json
  nodup : order.Nodup
  mem_iff : ∀ r, r ∈ order ↔ Reaches b v r
  visits : Visits b [] [v] order
  opened : (marks json).filterMap Mark.opened? = List.range order.length
  expands : ∀ number members, .opens number members ∈ marks json →
    ∃ r, order[number]? = some r ∧ ShowsAll order (b r) members
  ascending : ∀ number members, .opens number members ∈ marks json →
    Table.Sorted Prod.fst Table.byBytes members
  earlier : ∀ before number rest, marks json = before ++ .refers number :: rest →
    ∃ members, .opens number members ∈ before

/-- The namespaces that stand in an encoding are numbered. -/
theorem Shows.mem (h : Shows order (.exports r) json) : r ∈ order := by
  cases h with
  | opens found => exact List.mem_of_getElem? found
  | refers found => exact List.mem_of_getElem? found

theorem ShowsAll.exists_shows {bindings : Bindings} {members : List (String × Json)}
    {binding : String × Value} (h : ShowsAll order bindings members) (mem : binding ∈ bindings) :
    ∃ json, Shows order binding.2 json := by
  induction h with
  | nil => exact nomatch mem
  | @cons first member _ _ same _ ih =>
    rcases List.mem_cons.mp mem with rfl | mem
    · exact ⟨member.2, same.2⟩
    · exact ih mem

/-- Namespaces that are closed under exports are all that is reached from them. -/
theorem Reaches.mem (closed : ∀ r ∈ order, ∀ binding ∈ b r, ∀ t, binding.2 = .exports t → t ∈ order)
    (root : ∀ t, v = .exports t → t ∈ order) (h : Reaches b v r) : r ∈ order := by
  induction h with
  | here r => exact root r rfl
  | @through r t name v mem rest ih => exact ih (closed r (root r rfl) (name, v) mem)

theorem ShowsAll.sorted {bindings : Bindings} {members : List (String × Json)}
    (h : ShowsAll order bindings members) (sorted : Table.Sorted Prod.fst Table.byBytes bindings) :
    Table.Sorted Prod.fst Table.byBytes members := by
  have names : members.map Prod.fst = bindings.map Prod.fst := by
    induction h with
    | nil => rfl
    | cons same _ ih => rw [List.map_cons, List.map_cons, ih (List.Pairwise.of_cons sorted), same.1]
  have by_names : (bindings.map Prod.fst).Pairwise fun a b => Table.byBytes a b :=
    List.pairwise_map.mpr sorted
  rw [← names] at by_names
  exact List.pairwise_map.mp by_names

/-- A value is encoded with all that it leads to, if the depth suffices. -/
theorem encodeValue_unfolds (sorted : ∀ r, Table.Sorted Prod.fst Table.byBytes (b r)) (v : Value)
    (deep : Deep b depth []) : ∃ order, Unfolds b v (encodeValue b depth v []).1 order := by
  obtain ⟨part, shows, visits⟩ := encodeValue_spec v List.nodup_nil deep
  generalize encodeValue b depth v [] = result at part shows visits ⊢
  obtain ⟨json, order⟩ := result
  have closed : ∀ r ∈ order, ∀ binding ∈ b r, ∀ t, binding.2 = .exports t → t ∈ order := by
    intro r mem binding bound t same
    obtain ⟨number, lt, found⟩ := List.mem_iff_getElem.mp mem
    obtain ⟨members, opens⟩ := (part.opens_of_lt lt).resolve_left (Nat.not_lt_zero number)
    obtain ⟨r', found', shows⟩ := part.expands number members opens
    rw [List.getElem?_eq_getElem lt, found, Option.some.injEq] at found'
    subst found'
    obtain ⟨json, shows⟩ := shows.exists_shows bound
    exact (same ▸ shows).mem
  refine ⟨order, shows, part.nodup, fun r => ⟨fun mem => ?_, ?_⟩, visits, ?_, part.expands, ?_, ?_⟩
  · obtain ⟨v', mem, reaches⟩ := (visits.reached r mem).resolve_left List.not_mem_nil
    exact List.mem_singleton.mp mem ▸ reaches
  · exact Reaches.mem closed fun t same => (same ▸ shows).mem
  · simpa [List.range_eq_range'] using part.opened
  · intro number members opens
    obtain ⟨r, -, shows⟩ := part.expands number members opens
    exact shows.sorted (sorted r)
  · intro before number rest split
    exact (part.earlier before number rest split).resolve_left (Nat.not_lt_zero number)

end ModuleSystem.Loader
