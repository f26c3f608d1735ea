import Mathlib.Data.List.Nodup
import ModuleSystem.Proofs.Loader.Trace

/-!
# The registry over a run

A URL is in the registry once, with a record of that URL that belongs to the loader of the moment. A
record that is not registered any more has been deleted, so a loader never has more records for a
URL than modules of it have been deleted, and one (`Store.Listed`).

## Main definitions

* `Store.IsOf` : a record is one that the loader has made for a URL.
* `Store.Listed` : the registry agrees with the records and the history.

## Main results

* `Machine.Traced.listed` : it does so in every run.
-/

namespace ModuleSystem.Loader

variable {C M : Type}

namespace Store

/-- Whether a record is one that the loader has for a URL, as it is written. -/
def IsOf (s : Store C) (href : String) (r : RecordId) : Bool :=
  s.isAlive r && (s.record r).url.href == href

/-- How many records the loader has made for a URL. -/
def recordsOf (s : Store C) (href : String) : Nat :=
  (List.range s.records.size).countP (s.IsOf href)

/-- Whether an event is that a module of a URL was deleted. -/
def IsDeletion (s : Store C) (href : String) : Event → Bool
  | .deleted r => s.IsOf href r
  | _ => false

/-- Whether an event is that the hook was called for a URL. -/
def IsHookCall (s : Store C) (href : String) : Event → Bool
  | .hookCalled r => s.IsOf href r
  | _ => false

/-- The registry agrees with the records and the history. -/
structure Listed (s : Store C) : Prop where
  keys : (s.registry.map Prod.fst).Nodup
  entries : ∀ e ∈ s.registry, e.2 < s.records.size ∧ s.IsOf e.1 e.2
  deleted : ∀ r, .deleted r ∈ s.milestones → r < s.records.size ∧ ∀ e ∈ s.registry, e.2 ≠ r
  retired : s.retired ≤ s.records.size
  count : ∀ href, s.recordsOf href ≤
    s.milestones.countP (s.IsDeletion href) + (s.registry.map Prod.fst).count href

section Listed

variable {s s' : Store C} {r : RecordId} {url : Url} {href : String}

theorem isOf_congr (hr : (s'.record r).url = (s.record r).url) (retired : s'.retired = s.retired) :
    s'.IsOf href r = s.IsOf href r := by
  simp only [IsOf, isAlive, hr, retired]

/-- Listed stores stay so as long as no record comes or goes. -/
theorem Listed.congr (h : s.Listed) (registry : s'.registry = s.registry)
    (size : s'.records.size = s.records.size) (retired : s'.retired = s.retired)
    (url : ∀ r, r < s.records.size → (s'.record r).url = (s.record r).url)
    (milestones : s'.milestones = s.milestones ∨
      ∃ e, (∀ r, e ≠ .deleted r) ∧ s'.milestones = e :: s.milestones) : s'.Listed := by
  have isOf : ∀ href r, r < s.records.size → s'.IsOf href r = s.IsOf href r :=
    fun href r hr => isOf_congr (url r hr) retired
  have mem : ∀ r, .deleted r ∈ s'.milestones → .deleted r ∈ s.milestones := by
    intro r hr
    rcases milestones with h | ⟨e, he, h⟩
    · rwa [h] at hr
    · rw [h] at hr
      exact (List.mem_cons.mp hr).resolve_left (he r).symm
  have deletions : ∀ href,
      s'.milestones.countP (s'.IsDeletion href) = s.milestones.countP (s.IsDeletion href) := by
    intro href
    have same : s.milestones.countP (s'.IsDeletion href) =
        s.milestones.countP (s.IsDeletion href) := by
      refine List.countP_congr fun e he => ?_
      cases e with
      | deleted r => exact Iff.of_eq (congrArg (· = true) (isOf href r (h.deleted r he).1))
      | _ => rfl
    rcases milestones with h | ⟨e, he, h⟩
    · rw [h, same]
    · rw [h, List.countP_cons_of_neg, same]
      cases e with
      | deleted r => exact absurd rfl (he r)
      | _ => nofun
  refine ⟨by rw [registry]; exact h.keys, ?_, ?_, by rw [size, retired]; exact h.retired, ?_⟩
  · intro e he
    rw [registry] at he
    rw [size, isOf _ _ (h.entries e he).1]
    exact h.entries e he
  · intro r hr
    rw [size, registry]
    exact h.deleted r (mem r hr)
  · intro href
    have records : s'.recordsOf href = s.recordsOf href := by
      rw [recordsOf, size]
      exact List.countP_congr fun r hr =>
        Iff.of_eq (congrArg (· = true) (isOf href r (List.mem_range.mp hr)))
    rw [records, deletions, registry]
    exact h.count href

/-- A record that is made for a URL that is not registered is listed. -/
theorem Listed.append (h : s.Listed) (fresh : s.lookup url = none)
    (registry : s'.registry = s.registry ++ [(url.href, s.records.size)])
    (size : s'.records.size = s.records.size + 1) (retired : s'.retired = s.retired)
    (old : ∀ r, r < s.records.size → (s'.record r).url = (s.record r).url)
    (new : (s'.record s.records.size).url = url)
    (milestones : s'.milestones = .registered s.records.size :: s.milestones) : s'.Listed := by
  have isOf : ∀ href r, r < s.records.size → s'.IsOf href r = s.IsOf href r :=
    fun href r hr => isOf_congr (old r hr) retired
  have isOf_new : ∀ href, s'.IsOf href s.records.size = (url.href == href) := by
    intro href
    have alive : s'.isAlive s.records.size = true := by
      rw [isAlive_eq_true, retired]
      exact h.retired
    simp only [IsOf, alive, new, Bool.true_and]
  have absent : ∀ e ∈ s.registry, e.1 ≠ url.href := by
    intro e he heq
    have := List.lookup_eq_none_iff.mp fresh e he
    simp [heq] at this
  refine ⟨?_, ?_, ?_, ?_, ?_⟩
  · rw [registry, List.map_append]
    refine List.nodup_append.mpr ⟨h.keys, by simp, ?_⟩
    rintro key hkey key' hnew rfl
    obtain ⟨e, he, rfl⟩ := List.mem_map.mp hkey
    exact absent e he (List.mem_singleton.mp hnew)
  · intro e he
    rw [registry, List.mem_append, List.mem_singleton] at he
    rcases he with he | rfl
    · obtain ⟨lt, of⟩ := h.entries e he
      exact ⟨by rw [size]; exact Nat.lt_succ_of_lt lt, by rw [isOf _ _ lt]; exact of⟩
    · exact ⟨by rw [size]; exact Nat.lt_succ_self _, by rw [isOf_new]; exact beq_self_eq_true _⟩
  · intro r hr
    rw [milestones] at hr
    obtain ⟨lt, others⟩ := h.deleted r ((List.mem_cons.mp hr).resolve_left nofun)
    refine ⟨by rw [size]; exact Nat.lt_succ_of_lt lt, fun e he => ?_⟩
    rw [registry, List.mem_append, List.mem_singleton] at he
    rcases he with he | rfl
    · exact others e he
    · exact (Nat.ne_of_lt lt).symm
  · rw [size, retired]
    exact Nat.le_succ_of_le h.retired
  · intro href
    have records : s'.recordsOf href = s.recordsOf href + if url.href == href then 1 else 0 := by
      rw [recordsOf, size, List.range_succ, List.countP_append, List.countP_singleton, isOf_new]
      congr 1
      exact List.countP_congr fun r hr =>
        Iff.of_eq (congrArg (· = true) (isOf href r (List.mem_range.mp hr)))
    have deletions : s'.milestones.countP (s'.IsDeletion href) =
        s.milestones.countP (s.IsDeletion href) := by
      rw [milestones, List.countP_cons_of_neg (by nofun)]
      refine List.countP_congr fun e he => ?_
      cases e with
      | deleted r => exact Iff.of_eq (congrArg (· = true) (isOf href r (h.deleted r he).1))
      | _ => rfl
    have keys : (s'.registry.map Prod.fst).count href =
        (s.registry.map Prod.fst).count href + if url.href == href then 1 else 0 := by
      rw [registry, List.map_append, List.count_append]
      simp [List.count_singleton]
    rw [records, deletions, keys, ← Nat.add_assoc]
    exact Nat.add_le_add_right (h.count href) _

theorem Listed.create (h : s.Listed) {referrer : Option Url} (fresh : s.lookup url = none) :
    (s.create url referrer).Listed := by
  refine h.append fresh (by simp) (by simp) (by simp) (fun r hr => ?_) ?_ (by simp)
  · rw [record_create_of_ne (Nat.ne_of_lt hr)]
  · rw [record_create, if_pos rfl]

theorem Creates.listed (h : Creates s s') (listed : s.Listed) : s'.Listed := by
  induction h with
  | refl => exact listed
  | create _ url referrer fresh ih => exact ih.create fresh

/-- A URL that has been deleted is not registered. -/
theorem lookup_delete (s : Store C) (url : Url) : (s.delete url).1.lookup url = none := by
  cases hl : s.lookup url with
  | none => rw [delete_of_lookup_none hl, hl]
  | some r =>
    rw [delete_of_lookup hl]
    refine List.lookup_eq_none_iff.mpr fun e he => ?_
    rw [note_same.2.2.2.2.2.2.1, (idle_silence _ _).registry] at he
    have ne := of_decide_eq_true (List.mem_filter.mp he).2
    exact bne_iff_ne.mpr (Ne.symm ne)

theorem Listed.delete (h : s.Listed) : (s.delete url).1.Listed := by
  cases hl : s.lookup url with
  | none =>
    rw [delete_of_lookup_none hl]
    exact h
  | some r =>
    have idle := idle_silence (s.unregister url) r
    have registry : (s.delete url).1.registry =
        s.registry.filter fun e => decide (e.1 ≠ url.href) := by
      rw [delete_of_lookup hl, note_same.2.2.2.2.2.2.1, idle.registry]
      rfl
    have milestones := milestones_delete hl
    have isOf : ∀ href r, (s.delete url).1.IsOf href r = s.IsOf href r := fun href r =>
      isOf_congr (record_delete s url r).url (by simp)
    have mem : (url.href, r) ∈ s.registry := by
      obtain ⟨l₁, l₂, h, _⟩ := List.lookup_eq_some_iff.mp hl
      rw [h]
      simp
    obtain ⟨lt, of⟩ := h.entries _ mem
    have sub : ∀ e ∈ (s.delete url).1.registry, e ∈ s.registry ∧ e.1 ≠ url.href := by
      intro e he
      rw [registry] at he
      exact ⟨(List.mem_filter.mp he).1, of_decide_eq_true (List.mem_filter.mp he).2⟩
    refine ⟨?_, ?_, ?_, by simpa using h.retired, fun href => ?_⟩
    · rw [registry]
      exact List.Nodup.sublist (List.filter_sublist.map _) h.keys
    · intro e he
      rw [delete_same.1, isOf]
      exact h.entries e (sub e he).1
    · intro r' hr'
      rw [delete_same.1]
      rw [milestones] at hr'
      rcases List.mem_cons.mp hr' with heq | hr'
      · obtain rfl := Event.deleted.inj heq
        refine ⟨lt, fun e he hr => ?_⟩
        have of' := (h.entries e (sub e he).1).2
        simp only [IsOf, Bool.and_eq_true, beq_iff_eq] at of of'
        rw [hr] at of'
        exact (sub e he).2 (of'.2.symm.trans of.2)
      · obtain ⟨lt', others⟩ := h.deleted r' hr'
        exact ⟨lt', fun e he => others e (sub e he).1⟩
    · have records : (s.delete url).1.recordsOf href = s.recordsOf href := by
        rw [recordsOf, delete_same.1]
        exact List.countP_congr fun r _ => Iff.of_eq (congrArg (· = true) (isOf href r))
      have deletions : (s.delete url).1.milestones.countP ((s.delete url).1.IsDeletion href) =
          s.milestones.countP (s.IsDeletion href) + if s.IsOf href r then 1 else 0 := by
        have same : (s.delete url).1.IsDeletion href = s.IsDeletion href := by
          funext e
          cases e with
          | deleted r => exact isOf href r
          | _ => rfl
        rw [milestones, same, List.countP_cons]
        rfl
      have before := h.count href
      rw [records, deletions]
      by_cases hk : href = url.href
      · subst hk
        rw [if_pos of]
        have one := List.nodup_iff_count_le_one.mp h.keys url.href
        omega
      · have keys : ((s.delete url).1.registry.map Prod.fst).count href =
            (s.registry.map Prod.fst).count href := by
          rw [registry, List.count_eq_countP, List.count_eq_countP, List.countP_map, List.countP_map,
            List.countP_filter]
          refine List.countP_congr fun e _ => ?_
          simp only [Function.comp_apply, Bool.and_eq_true, beq_iff_eq, decide_eq_true_eq]
          exact ⟨fun h => h.1, fun h => ⟨h, by rw [h]; exact hk⟩⟩
        rw [keys]
        omega

theorem Listed.define (h : s.Listed) {entries : List (String × Value)} :
    (s.define url entries).1.Listed := by
  obtain ⟨bindings, record⟩ := @record_define_new _ s url entries
  have deleted : (s.delete url).1.Listed := h.delete
  refine deleted.append (lookup_delete s url) ?_ (by simp) (by simp) ?_ ?_ (by simp)
  · rw [registry_define, delete_same.1]
  · intro r hr
    rw [delete_same.1] at hr
    rw [(record_define_of_lt hr).url, (record_delete s url r).url]
  · rw [delete_same.1, record]

/-- A loader that has been dropped leaves an empty registry, and no record of its own. -/
theorem Listed.dropped (h : s.Listed) (registry : s'.registry = [])
    (size : s'.records.size = s.records.size) (retired : s'.retired = s.records.size)
    (milestones : s'.milestones = s.milestones) : s'.Listed := by
  refine ⟨by simp [registry], by simp [registry], ?_, by simp [size, retired], fun href => ?_⟩
  · intro r hr
    rw [milestones] at hr
    rw [size, registry]
    exact ⟨(h.deleted r hr).1, nofun⟩
  · have none : s'.recordsOf href = 0 := by
      refine List.countP_eq_zero.mpr fun r hr of => ?_
      have lt := List.mem_range.mp hr
      rw [IsOf, Bool.and_eq_true, isAlive_eq_true, retired] at of
      rw [size] at lt
      exact Nat.not_lt_of_le of.1 lt
    rw [none]
    exact Nat.zero_le _

end Listed

end Store

namespace Machine

open Store

section Runs

variable {host : Host C M} {ρ ρ' : Roles} {m m' : Machine C M} {trace : List (Machine C M)}

theorem SoundStep.listed (step : SoundStep host ρ ρ' m m') (h : m.store.Listed) :
    m'.store.Listed := by
  have quiet : m'.store.registry = m.store.registry →
      m'.store.records.size = m.store.records.size →
      (m'.store.milestones = m.store.milestones ∨
        ∃ e, (∀ r, e ≠ .deleted r) ∧ m'.store.milestones = e :: m.store.milestones) →
      m'.store.Listed := fun registry size milestones =>
    h.congr registry size step.rule.retired (fun r hr => (step.rule.recordChange hr).url_eq)
      milestones
  cases step.rule.news with
  | none milestones registry size => exact quiet registry size (.inl milestones)
  | hookCalled _ _ _ milestones registry size | bodyStarted _ _ _ milestones registry size
      | bodyEnded _ _ milestones registry size | changed _ _ milestones registry size
      | called _ _ milestones registry size =>
    exact quiet registry size (.inr ⟨_, by simp, milestones⟩)
  | made idle creates milestones registry size url =>
    have before := h.congr idle.registry idle.size_records idle.retired
      (fun r _ => (idle.record r).url) (.inl idle.milestones)
    refine (creates.listed before).congr registry size ?_ (fun r _ => url r) (.inl milestones)
    rw [step.rule.retired, creates.same.2.2.1, idle.retired]
  | deleted _ store =>
    rw [store]
    exact h.delete
  | defined _ _ store =>
    rw [store]
    exact h.define

/-- The registry agrees with the records and the history in every run. -/
theorem Traced.listed (h : Traced host ρ (m :: trace)) : m.store.Listed := by
  refine h.invariant (P := fun _ m => m.store.Listed) (fun base resolver memory => ?_)
    (fun _ step listed => step.listed listed) fun _ pause listed => ?_
  · exact ⟨.nil, nofun, nofun, Nat.le_refl 0, fun href => Nat.zero_le _⟩
  · have kept := pause.change.kept
    rcases kept.loader with ⟨registry, retired⟩ | ⟨registry, retired⟩
    · exact listed.congr registry kept.size_records retired (fun r _ => by rw [kept.record])
        (.inl kept.milestones)
    · exact listed.dropped registry kept.size_records retired kept.milestones

end Runs

end Machine

end ModuleSystem.Loader
