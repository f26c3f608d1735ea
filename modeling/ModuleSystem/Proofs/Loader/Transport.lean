import Mathlib.Data.List.Basic
import Mathlib.Data.List.Nodup
import Mathlib.Data.Set.Function
import ModuleSystem.Proofs.Json.Writing
import ModuleSystem.Proofs.Loader.Namespaces
import ModuleSystem.Proofs.Loader.Outlets
import ModuleSystem.Proofs.Loader.Trace

/-!
# Encodings tell graphs apart

Values that are sent to another process lose the numbers of their namespaces and the identities of
the host's values. Nothing else is lost: two encodings have the same text just if a bijection of the
namespaces takes one value to the other.

From the text of an encoding the encoding is known. Each place in it tells what can be seen of the
value there, and a namespace that is written out tells all its names; so numbering the namespaces of
two values in the order of the text gives the bijection. The other way round, two graphs that differ
by a renaming are encoded step by step alike, as their tables are sorted.

## Main definitions

* `Value.shown` : what can be seen of a value from outside.
* `SameGraph` : two values are the same but for numbers of namespaces and values of the host.
* `Store.TablesSorted` : the tables of a store are in the order of the bytes of the names.

## Main results

* `Unfolds.sameGraph` : values with the same encoding hold the same graph.
* `SameGraph.encodeValue_eq` : values that hold the same graph have the same encoding.
* `Machine.Run.tablesSorted` : in every run tables are sorted.
* `Store.valueJson_eq_iff` : encodings are equal just if the values hold the same graph.
* `Store.valueJson_faithful` : encodings are faithful.
-/

namespace ModuleSystem.Loader

variable {b b' : RecordId → Bindings} {v w : Value} {r t : RecordId} {json : Json}
  {order order' met : List RecordId} {f : RecordId → RecordId}

/-! ### Graphs of namespaces -/

/-- What can be seen of a value from outside: a value of the host loses its identity, and a
namespace is known by another number. -/
def Value.shown (f : RecordId → RecordId) : Value → Value
  | .exports r => .exports (f r)
  | .host _ => .host ""
  | v => v

/-- Two values are the same but for the numbers of the namespaces that they lead to and for the
values of the host: a bijection of these namespaces takes the one value to the other, and each
namespace to one with the same names and values. -/
def SameGraph (b b' : RecordId → Bindings) (v w : Value) : Prop :=
  ∃ f : RecordId → RecordId,
    Set.BijOn f {r | Reaches b v r} {r | Reaches b' w r} ∧
    v.shown f = w.shown id ∧
    ∀ r, Reaches b v r → ∀ name,
      ((b r).get? name).map (Value.shown f) = ((b' (f r)).get? name).map (Value.shown id)

@[simp]
theorem shown_shown (f g : RecordId → RecordId) (v : Value) :
    (v.shown f).shown g = v.shown (g ∘ f) := by
  cases v <;> rfl

/-- Two values between which no difference can be seen are two namespaces, two values of the host,
or one value. -/
theorem shown_cases (same : v.shown f = w.shown id) :
    (∃ r, v = .exports r ∧ w = .exports (f r)) ∨ (∃ x y, v = .host x ∧ w = .host y) ∨
      w = v ∧ ∀ r, v ≠ .exports r := by
  cases v <;> cases w <;> simp_all [Value.shown]

/-! ### From encodings to graphs -/

/-- The value that stands at a place in an encoding, as far as it can be seen. -/
def readValue (order : List RecordId) : Json → Option Value
  | .null => some .null
  | .bool x => some (.bool x)
  | .number x => some (.number x)
  | .string x => some (.string x)
  | .object [("$type", .string "undefined")] => some .undefined
  | .object [("$type", .string "host")] => some (.host "")
  | .object [("$type", .string "number"), (_, .string "NaN")] => some (.number .nan)
  | .object [("$type", .string "number"), (_, .string "Infinity")] =>
    some (.number (.infinite false))
  | .object [("$type", .string "number"), (_, .string "-Infinity")] =>
    some (.number (.infinite true))
  | .object [("$ref", .int (.ofNat number))] => order[number]?.map Value.exports
  | .object [("$namespace", .int (.ofNat number)), _] => order[number]?.map Value.exports
  | _ => none

/-- What stands for a value tells what can be seen of it. -/
theorem Shows.readValue_eq (h : Shows order v json) : readValue order json = some (v.shown id) := by
  cases h with
  | number x => rcases x with _ | (_ | _) | _ <;> rfl
  | opens found => exact congrArg (Option.map Value.exports) found
  | refers found => exact congrArg (Option.map Value.exports) found
  | _ => rfl

theorem readValue_map (f : RecordId → RecordId) (order : List RecordId) (json : Json) :
    readValue (order.map f) json = (readValue order json).map (Value.shown f) := by
  unfold readValue
  split <;> simp [Value.shown, Function.comp_def]

/-- Numberings of the same length differ by a renaming. -/
theorem exists_map_eq (nodup : order.Nodup) (length : order.length = order'.length) :
    ∃ f : RecordId → RecordId, order.map f = order' := by
  refine ⟨fun r => (order'[order.idxOf r]?).getD 0, ?_⟩
  refine List.ext_getElem (by simpa using length) fun i h h' => ?_
  rw [List.getElem_map, nodup.idxOf_getElem, List.getElem?_eq_getElem h', Option.getD_some]

/-- What stands at the same place for two values can be seen of both, one of them renamed. -/
theorem Shows.shown_eq (h : Shows order v json) (h' : Shows (order.map f) w json) :
    v.shown f = w.shown id := by
  have read := h'.readValue_eq
  rw [readValue_map, h.readValue_eq, Option.map_some, shown_shown, Option.some.injEq] at read
  exact read

/-- Bindings that stand in encodings as the same members have the same names and values. -/
theorem ShowsAll.map_eq {bindings bindings' : Bindings} {members : List (String × Json)}
    (h : ShowsAll order bindings members) (h' : ShowsAll (order.map f) bindings' members) :
    bindings.map (Prod.map id (Value.shown f)) = bindings'.map (Prod.map id (Value.shown id)) := by
  induction h generalizing bindings' with
  | nil =>
    cases h'
    rfl
  | cons same _ ih =>
    cases h' with
    | cons same' others =>
      rw [List.map_cons, List.map_cons, ih others]
      congr 1
      exact Prod.ext (same.1.trans same'.1.symm) (same.2.shown_eq same'.2)

/-- The namespaces of a value are renamed by their numbers. -/
theorem Unfolds.bijOn (h : Unfolds b v json order) (h' : Unfolds b' w json (order.map f)) :
    Set.BijOn f {r | Reaches b v r} {r | Reaches b' w r} := by
  refine ⟨fun r reached => ?_, fun r reached t reached' same => ?_, fun t reached => ?_⟩
  · exact (h'.mem_iff _).mp (List.mem_map_of_mem ((h.mem_iff r).mpr reached))
  · exact List.inj_on_of_nodup_map h'.nodup ((h.mem_iff r).mpr reached)
      ((h.mem_iff t).mpr reached') same
  · obtain ⟨r, mem, same⟩ := List.mem_map.mp ((h'.mem_iff t).mpr reached)
    exact ⟨r, (h.mem_iff r).mp mem, same⟩

/-- Values with the same encoding are the same but for the numbers of their namespaces. -/
theorem Unfolds.sameGraph (h : Unfolds b v json order) (h' : Unfolds b' w json order') :
    SameGraph b b' v w := by
  have length : order.length = order'.length := by
    simpa using congrArg List.length (h.opened.symm.trans h'.opened)
  obtain ⟨f, rfl⟩ := exists_map_eq h.nodup length
  refine ⟨f, h.bijOn h', h.shows.shown_eq h'.shows, fun r reached name => ?_⟩
  obtain ⟨number, lt, found⟩ := List.mem_iff_getElem.mp ((h.mem_iff r).mpr reached)
  have opened : number ∈ (marks json).filterMap Mark.opened? := by
    rw [h.opened, List.mem_range]
    exact lt
  obtain ⟨members, opens⟩ := mem_of_mem_opened opened
  obtain ⟨t, at_number, shows⟩ := h.expands number members opens
  obtain ⟨t', at_number', shows'⟩ := h'.expands number members opens
  rw [List.getElem?_eq_getElem lt, found, Option.some.injEq] at at_number
  rw [List.getElem?_map, List.getElem?_eq_getElem lt, found, Option.map_some,
    Option.some.injEq] at at_number'
  subst at_number at_number'
  rw [Bindings.get?, Bindings.get?, ← Table.get?_map, ← Table.get?_map, shows.map_eq shows']

/-! ### From graphs to encodings -/

/-- The namespaces in `R`, which is closed under exports, have the same names and values as those
that a renaming takes them to. -/
structure Renames (b b' : RecordId → Bindings) (f : RecordId → RecordId) (R : RecordId → Prop) :
    Prop where
  inj : ∀ {r t}, R r → R t → f r = f t → r = t
  closed : ∀ {r binding t}, R r → binding ∈ b r → binding.2 = .exports t → R t
  tables : ∀ {r}, R r → (b r).map (Prod.map id (Value.shown f)) =
    (b' (f r)).map (Prod.map id (Value.shown id))

/-- The results of encoding parts of two graphs, one of them renamed, after the namespaces in `met`:
what is written is the same, and the namespaces that are written out then are renamed. -/
structure Renamed {α : Type} (f : RecordId → RecordId) (R : RecordId → Prop) (met : List RecordId)
    (result result' : α × List RecordId) : Prop where
  fst : result'.1 = result.1
  snd : result'.2 = result.2.map f
  grows : met <+: result.2
  known : ∀ r ∈ result.2, R r

variable {R : RecordId → Prop} {depth depth' : Nat}

/-- The bindings of a renamed namespace are encoded like those of the namespace. -/
theorem encodeMembers_renamed {encode encode' : Value → List RecordId → Json × List RecordId}
    (each : ∀ {v w met}, (∀ r ∈ met, R r) → Deep b depth met → Deep b' depth' (met.map f) →
      (∀ t, v = .exports t → R t) → v.shown f = w.shown id →
      Renamed f R met (encode v met) (encode' w (met.map f)))
    {bindings bindings' : Bindings}
    (same : bindings.map (Prod.map id (Value.shown f)) =
      bindings'.map (Prod.map id (Value.shown id)))
    (closed : ∀ binding ∈ bindings, ∀ t, binding.2 = .exports t → R t) (known : ∀ r ∈ met, R r)
    (deep : bindings ≠ [] → Deep b depth met)
    (deep' : bindings' ≠ [] → Deep b' depth' (met.map f)) :
    Renamed f R met (encodeMembers encode bindings met)
      (encodeMembers encode' bindings' (met.map f)) := by
  induction bindings generalizing bindings' met with
  | nil =>
    obtain rfl : bindings' = [] := List.map_eq_nil_iff.mp same.symm
    exact ⟨rfl, rfl, List.prefix_rfl, known⟩
  | cons binding bindings ih =>
    cases bindings' with
    | nil => exact nomatch same
    | cons binding' bindings' =>
      obtain ⟨head, tail⟩ := List.cons.inj same
      have deep := deep (List.cons_ne_nil _ _)
      have deep' := deep' (List.cons_ne_nil _ _)
      have first := each known deep deep' (closed binding List.mem_cons_self)
        (congrArg Prod.snd head)
      have rest := ih tail (fun binding mem => closed binding (List.mem_cons_of_mem _ mem))
        first.known (fun _ => deep.mono first.grows)
        fun _ => deep'.mono (first.grows.map f)
      rw [← first.snd] at rest
      refine ⟨?_, rest.snd, first.grows.trans rest.grows, rest.known⟩
      have name : binding'.1 = binding.1 := (congrArg Prod.fst head).symm
      simp only [encodeMembers, first.fst, rest.fst, name]

theorem idxOf?_map (inj : ∀ t ∈ met, f t = f r → t = r) :
    (met.map f).idxOf? (f r) = met.idxOf? r := by
  induction met with
  | nil => rfl
  | cons t met ih =>
    rw [List.map_cons, List.idxOf?_cons, List.idxOf?_cons,
      ih fun t mem => inj t (List.mem_cons_of_mem _ mem)]
    by_cases same : t = r
    · simp [same]
    · have other : f t ≠ f r := fun h => same (inj t List.mem_cons_self h)
      simp [same, other]

/-- A renamed graph is encoded like the graph. -/
theorem Renames.encodeValue (h : Renames b b' f R) (known : ∀ r ∈ met, R r)
    (deep : Deep b depth met) (deep' : Deep b' depth' (met.map f))
    (root : ∀ t, v = .exports t → R t) (same : v.shown f = w.shown id) :
    Renamed f R met (encodeValue b depth v met) (encodeValue b' depth' w (met.map f)) := by
  induction depth generalizing depth' v w met with
  | zero => exact absurd rfl deep.ne_zero
  | succ depth ih =>
    obtain ⟨depth', rfl⟩ := Nat.exists_eq_succ_of_ne_zero deep'.ne_zero
    rcases shown_cases same with ⟨r, rfl, rfl⟩ | ⟨x, y, rfl, rfl⟩ | ⟨rfl, plain⟩
    · have hr : R r := root r rfl
      have index : (met.map f).idxOf? (f r) = met.idxOf? r :=
        idxOf?_map fun t mem => h.inj (known t mem) hr
      cases found : met.idxOf? r with
      | some number =>
        rw [encodeValue_of_met found, encodeValue_of_met (index.trans found)]
        exact ⟨rfl, rfl, List.prefix_rfl, known⟩
      | none =>
        have new : r ∉ met := List.idxOf?_eq_none_iff.mp found
        have new' : f r ∉ met.map f := List.idxOf?_eq_none_iff.mp (index.trans found)
        have known' : ∀ t ∈ met ++ [r], R t := by
          intro t mem
          rcases List.mem_append.mp mem with mem | mem
          · exact known t mem
          · exact List.mem_singleton.mp mem ▸ hr
        have append : (met ++ [r]).map f = met.map f ++ [f r] := by simp
        have members := encodeMembers_renamed (fun known deep => ih known deep) (h.tables hr)
          (fun binding mem t => h.closed hr mem) known' (fun exports => deep.open new exports)
          fun exports => append ▸ deep'.open new' exports
        rw [append] at members
        rw [encodeValue_of_new new, encodeValue_of_new new']
        refine ⟨?_, members.snd, (List.prefix_append met [r]).trans members.grows, members.known⟩
        rw [members.fst, List.length_map]
    · exact ⟨rfl, rfl, List.prefix_rfl, known⟩
    · cases w with
      | exports r => exact absurd rfl (plain r)
      | _ => exact ⟨rfl, rfl, List.prefix_rfl, known⟩

/-- Values that are the same but for the numbers of their namespaces have the same encoding. -/
theorem SameGraph.encodeValue_eq (sorted : ∀ r, Table.Sorted Prod.fst Table.byBytes (b r))
    (sorted' : ∀ r, Table.Sorted Prod.fst Table.byBytes (b' r)) (deep : Deep b depth [])
    (deep' : Deep b' depth' []) (h : SameGraph b b' v w) :
    (encodeValue b' depth' w []).1 = (encodeValue b depth v []).1 := by
  obtain ⟨f, bij, root, tables⟩ := h
  have renames : Renames b b' f (Reaches b v) := by
    refine ⟨fun hr ht same => bij.injOn hr ht same, ?_, fun {r} hr => ?_⟩
    · intro r binding t hr mem value
      obtain ⟨name, w⟩ := binding
      obtain rfl : w = .exports t := value
      exact hr.trans (.through mem (.here t))
    · refine Table.Sorted.ext_get? Table.byBytes_linear ((Table.sorted_map_iff _).mpr (sorted r))
        ((Table.sorted_map_iff _).mpr (sorted' (f r))) fun name => ?_
      rw [Table.get?_map, Table.get?_map]
      exact tables r hr name
  have encoded : Renamed f (Reaches b v) [] (encodeValue b depth v [])
      (encodeValue b' depth' w []) :=
    renames.encodeValue nofun deep deep' (by rintro t rfl; exact .here t) root
  exact encoded.fst

/-- A value is the same as itself. -/
theorem SameGraph.refl (b : RecordId → Bindings) (v : Value) : SameGraph b b v v :=
  ⟨id, Set.bijOn_id _, rfl, fun _ _ _ => rfl⟩

/-! ### Texts -/

theorem isFinite_typedJson {type : String} {members : List (String × Json)}
    (h : ∀ m ∈ members, Json.IsFinite m.2) : Json.IsFinite (typedJson type members) := by
  refine .object fun m mem => ?_
  rcases List.mem_cons.mp mem with rfl | mem
  · exact .string type
  · exact h m mem

theorem isFinite_numberJson (x : Number) : Json.IsFinite (numberJson x) := by
  rcases x with _ | (_ | _) | _
  · exact .number rfl
  all_goals exact isFinite_typedJson (by simpa using .string _)

theorem isFinite_encodeMembers {encode : Value → List RecordId → Json × List RecordId}
    (each : ∀ v met, Json.IsFinite (encode v met).1) (bindings : Bindings) (met : List RecordId) :
    ∀ m ∈ (encodeMembers encode bindings met).1, Json.IsFinite m.2 := by
  induction bindings generalizing met with
  | nil => exact nofun
  | cons binding bindings ih =>
    intro m mem
    rcases List.mem_cons.mp mem with rfl | mem
    · exact each binding.2 met
    · exact ih _ m mem

theorem isFinite_referenceJson (number : Nat) : Json.IsFinite (referenceJson number) :=
  .object (by simpa using .int number)

theorem isFinite_namespaceJson {members : List (String × Json)} (number : Nat)
    (h : ∀ m ∈ members, Json.IsFinite m.2) : Json.IsFinite (namespaceJson number members) := by
  refine .object fun m mem => ?_
  simp only [List.mem_cons, List.not_mem_nil, or_false] at mem
  rcases mem with rfl | rfl
  · exact .int number
  · exact .object h

theorem isFinite_of_plain (plain : ∀ r, v ≠ .exports r) (depth : Nat) (met : List RecordId) :
    Json.IsFinite (encodeValue b depth v met).1 := by
  cases v with
  | exports r => exact absurd rfl (plain r)
  | undefined | host => cases depth <;> exact isFinite_typedJson (by simp)
  | null => cases depth <;> exact .null
  | bool x => cases depth <;> exact .bool x
  | number x => cases depth <;> exact isFinite_numberJson x
  | string x => cases depth <;> exact .string x

/-- Encodings have finite numbers only. -/
theorem isFinite_encodeValue (b : RecordId → Bindings) (depth : Nat) (v : Value)
    (met : List RecordId) : Json.IsFinite (encodeValue b depth v met).1 := by
  induction depth generalizing v met with
  | zero =>
    by_cases plain : ∀ r, v ≠ .exports r
    · exact isFinite_of_plain plain 0 met
    · obtain ⟨r, rfl⟩ : ∃ r, v = .exports r := by simpa using plain
      cases found : met.idxOf? r with
      | some number =>
        rw [encodeValue_of_met found]
        exact isFinite_referenceJson number
      | none =>
        rw [encodeValue, found]
        exact .null
  | succ depth ih =>
    by_cases plain : ∀ r, v ≠ .exports r
    · exact isFinite_of_plain plain (depth + 1) met
    · obtain ⟨r, rfl⟩ : ∃ r, v = .exports r := by simpa using plain
      cases found : met.idxOf? r with
      | some number =>
        rw [encodeValue_of_met found]
        exact isFinite_referenceJson number
      | none =>
        rw [encodeValue_of_new (List.idxOf?_eq_none_iff.mp found)]
        exact isFinite_namespaceJson _ (isFinite_encodeMembers ih _ _)

/-! ### Tables -/

/-- The tables of a store are in the order of the bytes of the names. -/
def Store.TablesSorted {C : Type} (s : Store C) : Prop :=
  ∀ r, Table.Sorted Prod.fst Table.byBytes (s.bindings r)

/-- Records with sorted tables are all that a store needs. -/
theorem Store.tablesSorted_of_forall {C : Type} {s : Store C}
    (h : ∀ r ∈ s.records.toList, Table.Sorted Prod.fst Table.byBytes r.bindings) :
    s.TablesSorted := by
  intro r
  rw [Store.bindings, Store.record]
  cases found : s.records[r]? with
  | none => exact Table.sorted_nil
  | some record => exact h record (Array.mem_toList_iff.mpr (Array.mem_of_getElem? found))

section Tables

variable {C M : Type} {host : Host C M} {m m' : Machine C M} {trace : List (Machine C M)}
  {bindings : Bindings}

/-- Writing a list of exports keeps a table sorted. -/
theorem sorted_writeAll (fixed : Bool) (entries : List (String × Value))
    (sorted : Table.Sorted Prod.fst Table.byBytes bindings) :
    Table.Sorted Prod.fst Table.byBytes (Bindings.writeAll fixed entries bindings).1 := by
  have each : ∀ (state : Bindings × Bool), Table.Sorted Prod.fst Table.byBytes state.1 →
      ∀ entry, Table.Sorted Prod.fst Table.byBytes
        (Bindings.writeUnlessNew fixed state entry).1 := by
    intro state sorted entry
    simp only [Bindings.writeUnlessNew, Bindings.write]
    split_ifs
    · exact sorted
    · exact sorted
    · exact sorted.put Table.byBytes_linear _ _
  rw [Bindings.writeAll]
  generalize false = changed
  induction entries generalizing bindings changed with
  | nil => exact sorted
  | cons entry entries ih => exact ih (each (bindings, changed) sorted entry) _

/-- A step keeps tables sorted. -/
theorem Machine.Rule.tablesSorted (h : Machine.Rule host m m') (sorted : m.store.TablesSorted) :
    m'.store.TablesSorted := by
  intro r
  have before := sorted r
  rw [Store.bindings] at before ⊢
  cases h.outlet r with
  | same keeps => rwa [keeps.bindings]
  | adopted _ _ store =>
    rwa [store, Store.record_adopt_keeps Record.bindings fun _ _ _ _ => rfl]
  | published _ _ record =>
    rw [record]
    exact sorted_writeAll _ _ before
  | attached _ keeps record => rwa [record.bindings, keeps.bindings]
  | defined _ record =>
    rw [record]
    exact sorted_writeAll _ _ Table.sorted_nil

/-- In every run tables are sorted. -/
theorem Machine.Traced.tablesSorted {ρ : Roles} (h : Machine.Traced host ρ (m :: trace)) :
    m.store.TablesSorted := by
  refine h.invariant (P := fun _ m => m.store.TablesSorted) (fun base resolver memory r => ?_)
    (fun _ step sorted => step.rule.tablesSorted sorted) (fun _ pause sorted r => ?_)
  · rw [Store.bindings, record_start]
    exact Table.sorted_nil
  · rw [Store.bindings, pause.change.kept.record]
    exact sorted r

theorem Machine.Run.tablesSorted (h : Machine.Run host (m :: trace)) : m.store.TablesSorted := by
  obtain ⟨ρ, traced⟩ := h.exists_roles
  exact traced.tablesSorted

end Tables

/-! ### Transport -/

section Stores

variable {C C' : Type} {s : Store C} {s' : Store C'}

/-- Encodings with the same text are equal. -/
theorem Store.compact_valueJson_inj {v w : Value}
    (h : (s.valueJson v).compact = (s'.valueJson w).compact) : s.valueJson v = s'.valueJson w :=
  Json.compact_inj (isFinite_encodeValue _ _ _ _) (isFinite_encodeValue _ _ _ _) h

/-- Encodings are equal just if the values are the same but for the numbers of their namespaces and
for the values of the host. -/
theorem Store.valueJson_eq_iff (sorted : s.TablesSorted) (sorted' : s'.TablesSorted) {v w : Value} :
    s.valueJson v = s'.valueJson w ↔ SameGraph s.bindings s'.bindings v w := by
  have deep : Deep s.bindings (s.records.size + 1) [] := s.deep (Nat.lt_succ_self _) []
  have deep' : Deep s'.bindings (s'.records.size + 1) [] := s'.deep (Nat.lt_succ_self _) []
  refine ⟨fun same => ?_, fun same => (same.encodeValue_eq sorted sorted' deep deep').symm⟩
  obtain ⟨order, unfolds⟩ := encodeValue_unfolds sorted v deep
  obtain ⟨order', unfolds'⟩ := encodeValue_unfolds sorted' w deep'
  have encodings : (encodeValue s.bindings (s.records.size + 1) v []).1 =
      (encodeValue s'.bindings (s'.records.size + 1) w []).1 := same
  rw [← encodings] at unfolds'
  exact unfolds.sameGraph unfolds'

/-- Values are encoded faithfully, however the namespaces that they lead to hold each other. The
encoding ends, and no greater depth would change it; every namespace is written out once, under
numbers that ascend in the order of first visits, and referred to everywhere else; and two encodings
are equal, as values or as texts, just if the values are the same but for the numbers of their
namespaces and for the values of the host. -/
theorem Store.valueJson_faithful (sorted : s.TablesSorted) (sorted' : s'.TablesSorted)
    (v w : Value) :
    (∀ depth, s.records.size < depth → (encodeValue s.bindings depth v []).1 = s.valueJson v) ∧
    (∃ order, Unfolds s.bindings v (s.valueJson v) order) ∧
    (s.valueJson v = s'.valueJson w ↔ SameGraph s.bindings s'.bindings v w) ∧
    ((s.valueJson v).compact = (s'.valueJson w).compact ↔
      SameGraph s.bindings s'.bindings v w) := by
  have deep : Deep s.bindings (s.records.size + 1) [] := s.deep (Nat.lt_succ_self _) []
  have same_iff := valueJson_eq_iff sorted sorted' (v := v) (w := w)
  refine ⟨fun depth enough => ?_, encodeValue_unfolds sorted v deep, same_iff, ?_⟩
  · exact (SameGraph.refl s.bindings v).encodeValue_eq sorted sorted deep (s.deep enough [])
  · rw [← same_iff]
    exact ⟨compact_valueJson_inj, congrArg Json.compact⟩

/-- Two namespaces that hold each other, and the first also itself. -/
def ring : Store Unit where
  base := none
  resolver := {}
  records := #[
    { Record.blank with bindings := [("again", .exports 0), ("host", .host "a"),
        ("next", .exports 1)] },
    { Record.blank with bindings := [("next", .exports 0), ("none", .number .nan)] }]

/-- The same namespaces under each other's numbers. -/
def turnedRing : Store Unit where
  base := none
  resolver := {}
  records := #[
    { Record.blank with bindings := [("next", .exports 1), ("none", .number .nan)] },
    { Record.blank with bindings := [("again", .exports 1), ("host", .host "b"),
        ("next", .exports 0)] }]

/-- The two rings are encoded alike where they start at the same namespace, and not where they
do not. -/
theorem Store.valueJson_faithful_ring :
    ring.TablesSorted ∧ turnedRing.TablesSorted ∧
    (∃ order, Unfolds ring.bindings (.exports 0) (ring.valueJson (.exports 0)) order) ∧
    SameGraph ring.bindings turnedRing.bindings (.exports 0) (.exports 1) ∧
    ¬ SameGraph ring.bindings turnedRing.bindings (.exports 0) (.exports 0) := by
  have sorted : ring.TablesSorted := tablesSorted_of_forall (by
    unfold Table.Sorted
    decide)
  have sorted' : turnedRing.TablesSorted := tablesSorted_of_forall (by
    unfold Table.Sorted
    decide)
  obtain ⟨-, unfolds, -, same⟩ := valueJson_faithful sorted sorted' (.exports 0) (.exports 1)
  obtain ⟨-, -, -, other⟩ := valueJson_faithful sorted sorted' (.exports 0) (.exports 0)
  refine ⟨sorted, sorted', unfolds, same.mp (by decide +kernel), fun graph => ?_⟩
  have texts : (ring.valueJson (.exports 0)).compact ≠
      (turnedRing.valueJson (.exports 0)).compact := by decide +kernel
  exact texts (other.mpr graph)

end Stores

end ModuleSystem.Loader
