import Mathlib.Logic.Function.Basic
import ModuleSystem.Proofs.Loader.Ledger
import ModuleSystem.Proofs.Loader.Listening
import ModuleSystem.Proofs.Loader.Progress
import ModuleSystem.Proofs.Loader.Transport
import ModuleSystem.Proofs.Number.Shortest

/-!
# Lists of exports

A module may export several values at once. They are assigned to their names one after the other; once
the module is executed, an assignment to a new name is skipped (`Bindings.assign`). If at least one of
them changes a value, the setters that listen to the module are told of it, each of them once.

Whether a value changes is a question of `Value.SameValue`, which follows ECMA-262: a number that is
not one is the same as itself, and the two zeros are not the same. As each number has one form, values
are the same just if they are equal.

## Main definitions

* `Number.SameValue`, `Value.SameValue` : two values are the same.
* `Bindings.assign` : what a name and its value do to the values of all names.
* `Bindings.Alters` : one of some assignments changes the value of its name.
* `Machine.Exports` : what a list of exports of a module is to do.

## Main results

* `Machine.publish_exports` : what a list of exports does.
* `Machine.Run.exports_assigned` : who is told of it in a run, and that the names of an executed module
  are fixed.
-/

namespace ModuleSystem

/-! ### Values that are the same -/

/-- Two numbers are the same value. -/
def Number.SameValue : Number → Number → Prop
  | .nan, .nan => True
  | .infinite negative, .infinite negative' => negative = negative'
  | .finite negative m e _, .finite negative' n f _ =>
    negative = negative' ∧ m * 2 ^ e = n * 2 ^ f
  | _, _ => False

/-- Numbers of the same sign and absolute value have the same form. -/
theorem Number.eq_of_mul_two_pow {m n e f : Nat} (normal : IsNormal m e) (normal' : IsNormal n f)
    (same : m * 2 ^ e = n * 2 ^ f) : m = n ∧ e = f := by
  have scaled (k l : Nat) : fourfold k l = 4 * (k * 2 ^ l) * Nat.pow 10 1074 := by
    rw [fourfold_eq, quarter, Nat.pow_eq (m := 2)]
    generalize Nat.pow 10 1074 = unit
    ring
  have other : roundsTo n f (fourfold n f) := roundsTo_fourfold n f
  rw [scaled, ← same, ← scaled] at other
  exact eq_of_roundsTo normal normal' (roundsTo_fourfold m e) other

theorem Number.sameValue_iff {x y : Number} : x.SameValue y ↔ x = y := by
  constructor
  · intro same
    cases x with
    | finite negative m e normal =>
      cases y with
      | finite negative' n f normal' =>
        obtain ⟨rfl, same⟩ := same
        obtain ⟨rfl, rfl⟩ := eq_of_mul_two_pow normal normal' same
        rfl
      | infinite | nan => exact same.elim
    | infinite negative =>
      cases y with
      | infinite negative' => exact congrArg _ same
      | finite | nan => exact same.elim
    | nan =>
      cases y with
      | nan => rfl
      | finite | infinite => exact same.elim
  · rintro rfl
    cases x with
    | finite => exact ⟨rfl, rfl⟩
    | infinite => exact rfl
    | nan => trivial

namespace Loader

variable {C M : Type}

/-- Two values are the same, those that are known by their identity if it is the same. -/
def Value.SameValue : Value → Value → Prop
  | .undefined, .undefined => True
  | .null, .null => True
  | .bool b, .bool b' => b = b'
  | .number x, .number y => x.SameValue y
  | .string s, .string s' => s = s'
  | .exports r, .exports r' => r = r'
  | .host identity, .host identity' => identity = identity'
  | _, _ => False

theorem Value.sameValue_iff {v w : Value} : v.SameValue w ↔ v = w := by
  cases v <;> cases w <;> simp [SameValue, Number.sameValue_iff]

namespace Bindings

/-! ### Assignments -/

/-- The value of each name. -/
def values (bindings : Bindings) (name : String) : Option Value :=
  bindings.get? name

/-- The values after one assignment, which is skipped if it is to a new name where names are
fixed. -/
def assign (fixed : Bool) (values : String → Option Value) (entry : String × Value) :
    String → Option Value :=
  if fixed = true ∧ values entry.1 = none then values
  else Function.update values entry.1 (some entry.2)

/-- An assignment changes the value of its name. -/
def Changes (fixed : Bool) (values : String → Option Value) (entry : String × Value) : Prop :=
  match values entry.1 with
  | none => fixed = false
  | some old => ¬ old.SameValue entry.2

/-- At least one of some assignments changes the value that its name has by then. -/
def Alters (fixed : Bool) (entries : List (String × Value)) (values : String → Option Value) : Prop :=
  ∃ before entry after, entries = before ++ entry :: after ∧
    Changes fixed (before.foldl (assign fixed) values) entry

section Assignments

variable {fixed : Bool} {entry : String × Value} {entries : List (String × Value)}
  {values : String → Option Value} {state : Bindings × Bool}

theorem not_alters_nil : ¬ Alters fixed [] values := by
  rintro ⟨before, entry, after, nil, _⟩
  exact nomatch (List.nil_eq_append_iff.mp nil).2

theorem alters_cons : Alters fixed (entry :: entries) values ↔
    Changes fixed values entry ∨ Alters fixed entries (assign fixed values entry) := by
  constructor
  · rintro ⟨_ | ⟨first, before⟩, entry', after, split, changes⟩
    · obtain ⟨rfl, rfl⟩ := List.cons.inj split
      exact .inl changes
    · obtain ⟨rfl, rfl⟩ := List.cons.inj split
      exact .inr ⟨before, entry', after, rfl, changes⟩
  · rintro (changes | ⟨before, entry', after, rfl, changes⟩)
    · exact ⟨[], entry, entries, rfl, changes⟩
    · exact ⟨entry :: before, entry', after, rfl, changes⟩

/-- An entry is written as it is assigned. -/
theorem values_writeUnlessNew :
    (writeUnlessNew fixed state entry).1.values = assign fixed state.1.values entry := by
  obtain ⟨bindings, changed⟩ := state
  obtain ⟨name, value⟩ := entry
  have new : (fixed && !bindings.contains name) = true ↔
      fixed = true ∧ bindings.values name = none := by
    simp [contains, values]
  simp only [writeUnlessNew, assign, new, write]
  split_ifs with skipped same
  · rfl
  · exact (Function.update_eq_self_iff.mpr same.symm).symm
  · funext other
    rw [Function.update_apply]
    exact Table.get?_put ..

/-- Writing an entry tells whether it changes a value. -/
theorem changed_writeUnlessNew : (writeUnlessNew fixed state entry).2 = true ↔
    state.2 = true ∨ Changes fixed state.1.values entry := by
  obtain ⟨bindings, changed⟩ := state
  obtain ⟨name, value⟩ := entry
  simp only [writeUnlessNew, Changes, write, contains, values, Value.sameValue_iff]
  rcases Option.eq_none_or_eq_some (bindings.get? name) with none | ⟨old, some⟩
  · cases fixed <;> simp [none]
  · by_cases same : old = value <;> simp [some, same]

/-- A list of exports is written as it is assigned. -/
theorem values_writeAll (fixed : Bool) (entries : List (String × Value)) (bindings : Bindings) :
    (writeAll fixed entries bindings).1.values = entries.foldl (assign fixed) bindings.values := by
  rw [writeAll]
  generalize false = changed
  induction entries generalizing bindings changed with
  | nil => rfl
  | cons entry entries ih => rw [List.foldl_cons, List.foldl_cons, ih, values_writeUnlessNew]

/-- Writing a list of exports tells whether one of them changes a value. -/
theorem changed_writeAll (fixed : Bool) (entries : List (String × Value)) (bindings : Bindings) :
    (writeAll fixed entries bindings).2 = true ↔ Alters fixed entries bindings.values := by
  have general : ∀ state : Bindings × Bool, (entries.foldl (writeUnlessNew fixed) state).2 = true ↔
      state.2 = true ∨ Alters fixed entries state.1.values := by
    induction entries with
    | nil => simp [not_alters_nil]
    | cons entry entries ih =>
      intro state
      rw [List.foldl_cons, ih, changed_writeUnlessNew, values_writeUnlessNew, alters_cons, or_assoc]
  exact (general (bindings, false)).trans (by simp)

/-- Assignments keep to the names where these are fixed. -/
theorem foldl_assign_fixed (entries : List (String × Value)) (values : String → Option Value)
    (name : String) :
    (entries.foldl (assign true) values name).isSome = (values name).isSome := by
  induction entries generalizing values with
  | nil => rfl
  | cons entry entries ih =>
    rw [List.foldl_cons, ih, assign]
    split_ifs with new
    · rfl
    · rw [Function.update_apply]
      split_ifs with same
      · rw [same, Option.isSome_some]
        exact (Option.isSome_iff_ne_none.mpr fun none => new ⟨rfl, none⟩).symm
      · rfl

/-- Sorted tables have the same names if these have values in both. -/
theorem names_eq {bindings bindings' : Bindings}
    (sorted : Table.Sorted Prod.fst Table.byBytes bindings)
    (sorted' : Table.Sorted Prod.fst Table.byBytes bindings')
    (same : ∀ name, (bindings'.values name).isSome = (bindings.values name).isSome) :
    bindings'.names = bindings.names := by
  have blank := Table.Sorted.ext_get? Table.byBytes_linear
    ((Table.sorted_map_iff fun _ => ()).mpr sorted') ((Table.sorted_map_iff fun _ => ()).mpr sorted)
    fun name => by
      have same := same name
      rw [Table.get?_map, Table.get?_map]
      simp only [values, get?] at same
      cases found : Table.get? name bindings <;> cases found' : Table.get? name bindings' <;>
        simp_all
  simpa [names, Function.comp_def] using congrArg (List.map Prod.fst) blank

end Assignments

end Bindings

/-! ### Exports of a module -/

namespace Machine

open Store

/-- At least one of some exports of a module changes a value. -/
def Alters (m : Machine C M) (r : RecordId) (entries : List (String × Value)) : Prop :=
  Bindings.Alters (m.store.stateOf r = .executed) entries (m.store.bindings r).values

/-- What a list of exports of a module does: it is assigned to the values of its names, and the
setters that listen to the module are to be told of it if it changes one. -/
structure Exports (m m' : Machine C M) (r : RecordId) (entries : List (String × Value)) : Prop where
  values : (m'.store.bindings r).values =
    entries.foldl (Bindings.assign (m.store.stateOf r = .executed)) (m.store.bindings r).values
  others : ∀ r', r' ≠ r → m'.store.record r' = m.store.record r'
  told : m.Alters r entries →
    m'.store.raised = m.store.raised ++ (m.store.record r).importerSetters.map (·, r) ∧
    m'.store.queue = m.store.queue ++ (m.store.record r).importerSetters.map (·, r)
  untold : ¬ m.Alters r entries →
    m'.store.raised = m.store.raised ∧ m'.store.queue = m.store.queue
  delivered : m'.store.delivered = m.store.delivered

section Steps

variable {host : Host C M} {ρ ρ' : Roles} {m m' x : Machine C M} {trace : List (Machine C M)}
  {s : Store C} {r : RecordId} {entries : List (String × Value)}

theorem alters_iff : m.Alters r entries ↔ ((m.store.record r).exportAll entries).2 = true :=
  (Bindings.changed_writeAll _ _ _).symm

/-- The store after the bindings of a module have been written. -/
private theorem bindings_update (entries : List (String × Value))
    (known : r < m.store.records.size)
    (record : s.record = (m.store.update r fun _ =>
      ((m.store.record r).exportAll entries).1).record) :
    (s.bindings r).values =
      entries.foldl (Bindings.assign (m.store.stateOf r = .executed)) (m.store.bindings r).values ∧
    ∀ r', r' ≠ r → s.record r' = m.store.record r' := by
  refine ⟨?_, fun r' ne => by rw [record, record_update_of_ne ne]⟩
  rw [Store.bindings, record, record_update_self known]
  exact Bindings.values_writeAll ..

theorem publish_exports (known : r < m.store.records.size) (alive : m.store.isAlive r = true)
    (entries : List (String × Value)) : m.Exports (m.publish r entries) r entries := by
  cases changed : ((m.store.record r).exportAll entries).2 with
  | false =>
    have next : m.publish r entries = ⟨m.store.update r fun _ =>
        ((m.store.record r).exportAll entries).1, m.memory, m.stack, .reply .done⟩ := by
      simp [publish, alive, changed, mapStore, Machine.next]
    rw [next]
    obtain ⟨values, others⟩ := bindings_update entries known rfl
    refine ⟨values, others, fun alters => ?_, fun _ => ⟨rfl, rfl⟩, rfl⟩
    cases changed.symm.trans (alters_iff.mp alters)
  | true =>
    obtain ⟨s, st, c, after, way⟩ := propagate_propagates
      (push { m with
        store := (m.store.update r fun _ => ((m.store.record r).exportAll entries).1).note
          (.changed r) } .publishing .drained)
      ((m.store.record r).exportAll entries).1.importerSetters r
    have next : m.publish r entries = ⟨s, m.memory, st, c⟩ := by
      rw [push] at after
      simp [publish, alive, changed, mapStore, push, after]
    rw [next]
    obtain ⟨values, others⟩ := bindings_update entries known way.still.record
    obtain ⟨raised, delivered⟩ := raised_of_raises way.dispatches
    exact ⟨values, others, fun _ => ⟨raised, way.queue_eq⟩,
      fun unaltered => absurd (alters_iff.mpr changed) unaltered, delivered⟩

/-- Exports of a module whose loader has been dropped do nothing. -/
theorem publish_of_dropped (dropped : m.store.isAlive r = false)
    (entries : List (String × Value)) : (m.publish r entries).store = m.store := by
  simp [publish, dropped, Machine.next]

/-- What a list of exports raises in a run is found among what has been raised later. -/
theorem Traced.raised_of_publish (h : Traced host ρ (m :: trace)) (mem : x ∈ trace)
    (control : x.control = .serve (.publish r entries)) (known : r < x.store.records.size)
    (alive : x.store.isAlive r = true) (alters : x.Alters r entries) :
    x.store.raised ++ (x.store.record r).importerSetters.map (·, r) <+: m.store.raised := by
  generalize hl : m :: trace = states at h
  induction h generalizing m trace with
  | start =>
    cases hl
    cases mem
  | step traced step ih =>
    cases hl
    rcases List.mem_cons.mp mem with rfl | mem
    · have next : x.step host = x.publish r entries := by
        simp [Machine.step, control, serve]
      have raised := ((publish_exports known alive entries).told alters).1
      rw [← next, ← step.next] at raised
      exact ⟨[], (List.append_nil _).trans raised.symm⟩
    · exact (ih mem rfl).trans
        (step.dispatches traced.paced traced.placement.known_queue).grows.1
  | outside traced pause ih =>
    cases hl
    rcases List.mem_cons.mp mem with rfl | mem
    · obtain ⟨_, _, replies⟩ := reply?_isSome.mp pause.rests
      cases control.symm.trans replies
    · rw [(ledger_of_same (pause.dispatches traced.paced).1).1]
      exact ih mem rfl

/-! ### Names of executed modules -/

/-- A step leaves the names of an executed module as they are. -/
theorem SoundStep.names_eq (step : SoundStep host ρ ρ' m m') (sorted : m.store.TablesSorted)
    (sorted' : m'.store.TablesSorted)
    (executed : (m.store.record r).state = .executed ∨ m.Repeats r) :
    (m'.store.bindings r).names = (m.store.bindings r).names := by
  have same : m'.store.bindings r = m.store.bindings r →
      (m'.store.bindings r).names = (m.store.bindings r).names := congrArg Bindings.names
  cases step.rule.outlet r with
  | same keeps => exact same keeps.bindings
  | adopted _ _ store =>
    refine same ?_
    rw [store]
    exact record_adopt_keeps Record.bindings fun _ _ _ _ => rfl
  | @published entries control _ record =>
    have state : (m.store.record r).state = .executed := executed.resolve_right fun repeats => by
      rcases repeats.next with next | ⟨_, next, _⟩ <;> cases control.symm.trans next
    have written : (m'.store.bindings r).values =
        entries.foldl (Bindings.assign true) (m.store.bindings r).values := by
      rw [Store.bindings, record]
      refine (Bindings.values_writeAll _ _ _).trans ?_
      rw [state, decide_eq_true rfl, Store.bindings]
    refine Bindings.names_eq (sorted r) (sorted' r) fun name => ?_
    rw [written, Bindings.foldl_assign_fixed]
  | attached _ keeps record => exact same (record.bindings.trans keeps.bindings)
  | defined new _ =>
    have known : r < m.store.records.size := by
      rcases executed with executed | repeats
      · refine Nat.lt_of_not_le fun ge => ?_
        rw [record_of_size_le ge] at executed
        cases executed
      · exact repeats.known
    exact absurd new (Nat.ne_of_lt known)

/-- The names of a module stay as they are once it is executed, in every run. -/
theorem Traced.names_eq (h : Traced host ρ (m :: trace)) (mem : x ∈ m :: trace)
    (executed : (x.store.record r).state = .executed) :
    (m.store.bindings r).names = (x.store.bindings r).names := by
  generalize hl : m :: trace = states at h mem
  induction h generalizing m trace with
  | start base resolver memory =>
    cases hl
    rw [List.mem_singleton.mp mem]
  | @step _ _ m₀ _ _ traced step ih =>
    cases hl
    rcases List.mem_cons.mp mem with rfl | mem
    · rfl
    · have now : (m₀.store.record r).state = .executed ∨ m₀.Repeats r := by
        refine (traced.leadsTo_or_repeats mem).imp (fun forward => ?_) And.right
        rwa [executed] at forward
      exact (step.names_eq traced.tablesSorted (traced.step step).tablesSorted now).trans (ih rfl mem)
  | outside traced pause ih =>
    cases hl
    rcases List.mem_cons.mp mem with rfl | mem
    · rfl
    · rw [Store.bindings, pause.change.kept.record]
      exact ih rfl mem

/-- Lists of exports. In any state of any machine, the values of a module after a list of exports are
the left fold of the list over those before; its setters are to be told if one of the exports changed
a value, and not if none did; and no other record changes. In every run, no setter listens to a
module twice, and if no host code gives up during a delivery, what has been raised by a list of
exports is delivered or waits to be, in order. The names of a module that is executed are fixed. -/
theorem Run.exports_assigned (h : Run host (m :: trace)) :
    (∀ (m : Machine C M) r entries, r < m.store.records.size → m.store.isAlive r = true →
      m.Exports (m.publish r entries) r entries) ∧
    (∀ (m : Machine C M) r entries, m.store.isAlive r = false →
      (m.publish r entries).store = m.store) ∧
    (∀ r, (m.store.record r).importerSetters.Nodup) ∧
    (∀ x ∈ trace, ∀ r entries, x.control = .serve (.publish r entries) →
      r < x.store.records.size → x.store.isAlive r = true → x.Alters r entries →
      x.store.raised ++ (x.store.record r).importerSetters.map (·, r) <+: m.store.raised) ∧
    ((∀ x ∈ m :: trace, x.control = .unwind → x.store.draining = false) →
      m.store.raised = m.store.delivered ++ m.store.queue) ∧
    ∀ x ∈ trace, ∀ r, x.store.stateOf r = .executed →
      (m.store.bindings r).names = (x.store.bindings r).names := by
  obtain ⟨ρ, traced⟩ := h.exists_roles
  exact ⟨fun _ _ entries known alive => publish_exports known alive entries,
    fun _ _ entries dropped => publish_of_dropped dropped entries, traced.nodup_importerSetters,
    fun _ mem _ _ => traced.raised_of_publish mem, traced.ledger,
    fun _ mem _ executed => traced.names_eq (List.mem_cons_of_mem _ mem) executed⟩

end Steps

/-- A module that watches another one, which exports that something is not a number. -/
def lateModules : List (String × Script.Program) :=
  [("x:/a", { dependencies := [("x:/b", some [])] }),
   ("x:/b", { body := some (.steps [.publish [("n", .value (.number .nan))]]) })]

/-- The import is polled. Then exports of the second module are published, which is executed: the
same value and a new name; zero and the old value; zero; and zero of the other sign. -/
def lateStimuli : List (Stimulus Script.Memory) :=
  [.request (.poll (.waiting 0 2)),
   .request (.publish 1 [("n", .number .nan), ("l", .null)]),
   .request (.publish 1 [("n", .number (.zero false)), ("n", .number .nan)]),
   .request (.publish 1 [("n", .number (.zero false))]),
   .request (.publish 1 [("n", .number (.zero true)), ("l", .null)])]

section Late

/-- What this leads to. -/
def lateEnd : Machine Script.Code Script.Memory :=
  scriptedEnd lateModules "x:/a" lateStimuli 90

/-- The states before. -/
def lateTrace : List (Machine Script.Code Script.Memory) :=
  (scripted lateModules "x:/a" lateStimuli 90).tail

theorem Run.exports_assigned_late : Run Script.host (lateEnd :: lateTrace) ∧
    (∃ x ∈ lateTrace, x.store.stateOf 1 = .executed ∧
      x.store.bindings 1 = [("n", .number .nan)] ∧ (lateEnd.store.bindings 1).names = ["n"]) ∧
    lateEnd.store.bindings 1 = [("n", .number (.zero true))] ∧
    lateEnd.store.raised = [(0, 1), (0, 1), (0, 1), (0, 1)] ∧
    lateEnd.store.raised = lateEnd.store.delivered ++ lateEnd.store.queue ∧
    (lateEnd.store.record 1).importerSetters = [0] ∧
    (lateEnd.store.record 1).importerSetters.Nodup ∧
    lateEnd.Exports (lateEnd.publish 1 [("n", .null)]) 1 [("n", .null)] := by
  have run : Run Script.host (lateEnd :: lateTrace) := .scripted lateModules "x:/a" lateStimuli 90
  have calm : ∀ x ∈ lateEnd :: lateTrace, x.control = .unwind → x.store.draining = false := by
    decide +kernel
  have before : ∃ x ∈ lateTrace, x.store.stateOf 1 = .executed ∧
      x.store.bindings 1 = [("n", .number .nan)] := by decide +kernel
  obtain ⟨exports, _, nodup, _, ledger, fixed⟩ := Run.exports_assigned run
  refine ⟨run, ?_, by decide +kernel, by decide +kernel, ledger calm, by decide +kernel, nodup 1,
    exports lateEnd 1 _ (by decide +kernel) (by decide +kernel)⟩
  obtain ⟨x, mem, executed, bindings⟩ := before
  refine ⟨x, mem, executed, bindings, ?_⟩
  rw [fixed x mem 1 executed, bindings]
  rfl

end Late

end Machine

end Loader

end ModuleSystem
