import ModuleSystem.Proofs.Loader.Listening
import ModuleSystem.Proofs.Loader.Resolving

/-!
# Linking is all or nothing

The setters of a module are handed over one after the other, and those that are called in between may
do anything. Still, once the first of them has been handed over the module cannot fail to be linked:
either all of them are handed over, or host code gives up (`Machine.Committed`). So a module whose linking
fails has handed over none of its setters (`Machine.Traced.not_concerns`). A module that has been
linked has handed over all of them, as its hook has registered them (`Machine.Wired`).

## Main definitions

* `Machine.Enlists` : a setter comes to listen to a module.
* `Machine.Wired` : a module has been linked as it has been registered.

## Main results

* `Machine.Run.links_all_or_none` : in every run, a module whose linking fails hands over none of its
  setters, and one that is linked hands over each of them, once and in order.
-/

namespace ModuleSystem.Loader

variable {C M : Type}

namespace Machine

open Store

/-! ### Modules whose setters are being handed over -/

/-- The first setter of a module has been handed over for some dependencies: the others are handed
over as well, or the module has been linked, or host code has given up before it was. -/
inductive Committed (ρ : Roles) (m : Machine C M) (r : RecordId) (dependencies : List Dependency) :
    Prop
  | handing {left} (carries : m.Carries r dependencies left)
      (begun : left.length < dependencies.length)
  | linked (linked : m.Linked r)
  | givenUp {j} (is : ρ.Is j (.link r)) (givesUp : m.GivesUp j)

section Committed

variable {host : Host C M} {ρ ρ' : Roles} {m m' : Machine C M} {trace : List (Machine C M)}
  {r d : RecordId} {x : SetterId} {dependencies now left : List Dependency} {outcome : Outcome}
  {error : LoaderError}

theorem Committed.step (begun : Committed ρ m r dependencies) (step : SoundStep host ρ ρ' m m')
    (sequenced : m.Sequenced) (staged' : m'.Staged ρ') : Committed ρ' m' r dependencies := by
  cases begun with
  | handing carries less =>
    rcases step.goesOn sequenced carries less with
      ⟨now, left, rfl, carries | ⟨_, modules, _⟩⟩ | ⟨j, is, givesUp⟩
    · refine .handing carries (Nat.lt_of_le_of_lt ?_ less)
      rw [List.length_append]
      exact Nat.le_add_left _ _
    · refine .linked (staged'.dependencies r fun empty => ?_)
      rw [modules, List.map_eq_nil_iff] at empty
      rw [empty] at less
      exact absurd less (Nat.not_lt_zero _)
    · exact .givenUp is givesUp
  | linked linked => exact .linked (step.linked linked)
  | givenUp is givesUp => exact .givenUp (is.mono step.follow.le) (step.givesUp givesUp)

theorem Committed.pause (begun : Committed ρ m r dependencies) (pause : SoundPause ρ m m') :
    Committed ρ m' r dependencies := by
  cases begun with
  | handing carries less =>
    obtain ⟨_, _, ⟨rfl, _⟩ | ⟨frame, st, below, _⟩⟩ := pause.sound.of_carries carries
    · exact absurd less (Nat.lt_irrefl _)
    · rw [(reply?_isSome.mp pause.rests).1] at below
      exact nomatch List.suffix_nil.mp below
  | linked linked => exact .linked (pause.linked.mpr linked)
  | givenUp is givesUp => exact .givenUp is (pause.givesUp givesUp)

theorem stable_committed : Stable host fun ρ m => Committed ρ m r dependencies :=
  ⟨fun traced step committed =>
    committed.step step traced.sequenced (traced.step step).staged,
    fun _ pause committed => committed.pause pause⟩

/-- A module has begun to hand over its setters when it does so with one. -/
theorem Hands.committed (hands : Hands m m' r dependencies now left) (sequenced : m.Sequenced)
    (staged' : m'.Staged ρ') (some : now ≠ []) : Committed ρ' m' r dependencies := by
  have suffix := (sequenced.left r _ _ hands.carries).length_le
  have pos := List.length_pos_iff.mpr some
  rw [List.length_append] at suffix
  rcases hands.goesOn with carries | ⟨_, modules, _⟩
  · exact .handing carries (by omega)
  · refine .linked (staged'.dependencies r fun empty => ?_)
    rw [modules, List.map_eq_nil_iff] at empty
    rw [empty, List.length_nil] at suffix
    omega

/-- A module that has begun to hand over its setters does not fail to be linked. -/
theorem Committed.not_failed (begun : Committed ρ m r dependencies) (sound : m.Sound ρ) :
    m.linking? r ≠ some (.error error) := by
  intro failed
  rw [linking?_eq_some] at failed
  cases begun with
  | handing carries _ => exact sound.not_finished_of_carries carries failed
  | linked linked =>
    obtain ⟨_, finished | ⟨_, st, stack⟩⟩ := linked
    · exact nomatch finished.symm.trans failed
    · have running := sound.running_of_mem (stack ▸ List.mem_cons_self)
      exact nomatch running.symm.trans failed
  | givenUp is givesUp =>
    rw [(sound.store.links _ r is).2] at failed
    exact sound.not_givesUp failed givesUp

theorem not_concerns_start {base : Option Url} {resolver : Resolver} {memory : M} :
    ¬ Concerns ({ store := { base, resolver }, memory } : Machine C M) x d := by
  rintro (listens | queued | called)
  · rw [record_start] at listens
    exact nomatch listens
  · exact nomatch queued
  · exact nomatch called

/-- A setter that has to do with a module belongs to a module that has begun to hand over its
setters. -/
private theorem Traced.committed_now (h : Traced host ρ (m :: trace)) (concerns : m.Concerns x d) :
    ∃ r i dependencies, (∃ y ∈ m :: trace, y.Placed x r i) ∧ Committed ρ m r dependencies := by
  generalize hl : m :: trace = states at h
  induction h generalizing m trace with
  | start base resolver memory =>
    cases hl
    exact absurd concerns not_concerns_start
  | @step _ _ m₀ _ _ traced advance ih =>
    cases hl
    have staged' := (traced.step advance).staged
    rcases advance.concerns traced.sequenced concerns with
      concerns | ⟨r, dependencies, now, left, hands, handed⟩
    · obtain ⟨r, i, dependencies, ⟨y, mem, placed⟩, committed⟩ := ih concerns rfl
      exact ⟨r, i, dependencies, ⟨y, List.mem_cons_of_mem _ mem, placed⟩,
        committed.step advance traced.sequenced staged'⟩
    · obtain ⟨i, waits, _⟩ := hands.place traced.sequenced handed
      exact ⟨r, i, dependencies, ⟨m₀, by simp, .inl waits⟩,
        hands.committed traced.sequenced staged' (List.ne_nil_of_mem handed)⟩
  | outside traced pause ih =>
    cases hl
    obtain ⟨r, i, dependencies, ⟨y, mem, placed⟩, committed⟩ := ih (concerns.of_pause pause) rfl
    exact ⟨r, i, dependencies, ⟨y, List.mem_cons_of_mem _ mem, placed⟩, committed.pause pause⟩

/-- In every run, a setter that has ever had to do with a module belongs to a module that has begun
to hand over its setters. -/
theorem Traced.committed (h : Traced host ρ (m :: trace)) (mem : m' ∈ m :: trace)
    (concerns : m'.Concerns x d) : ∃ r i dependencies, (∃ y ∈ m :: trace, y.Placed x r i) ∧
      Committed ρ m r dependencies := by
  obtain ⟨later, earlier, states⟩ := List.append_of_mem mem
  obtain ⟨_, traced, kept⟩ := h.persists ⟨later, states.symm⟩
  obtain ⟨r, i, dependencies, ⟨y, mem, placed⟩, committed⟩ := traced.committed_now concerns
  refine ⟨r, i, dependencies, ⟨y, ?_, placed⟩, kept _ stable_committed committed⟩
  rw [states]
  exact List.mem_append_right _ mem

/-- How a module has been linked stays so. -/
theorem Traced.linking?_eq (h : Traced host ρ (m :: trace)) (mem : m' ∈ m :: trace)
    (known : r < m'.store.records.size) (ended : m'.linking? r = some outcome) :
    m.linking? r = some outcome := by
  refine (h.persists_of_mem mem
    (P := fun m => r < m.store.records.size ∧ m.linking? r = some outcome)
    ⟨fun _ step ⟨known, ended⟩ => ?_, fun _ pause ⟨known, ended⟩ => ?_⟩ ⟨known, ended⟩).2
  · refine ⟨Nat.lt_of_lt_of_le known step.rule.size_records_le, ?_⟩
    rw [linking?_eq_some] at ended ⊢
    rw [(step.rule.recordChange known).linking_eq]
    exact step.ends (step.sound.lt_of_links (step.sound.store.linking r known)) (.inl ended)
  · have kept := pause.change.kept
    rw [linking?_eq_some] at ended ⊢
    rw [kept.size_records, kept.record, kept.state_job]
    exact ⟨known, ended⟩

/-- In every run, a setter of a module whose linking fails never has to do with any module. -/
theorem Traced.not_concerns (h : Traced host ρ trace) (mem : m ∈ trace)
    (known : r < m.store.records.size) (failed : m.linking? r = some (.error error))
    (setter : IsSetterOf trace x r) (mem' : m' ∈ trace) : ¬ m'.Concerns x d := by
  intro concerns
  obtain ⟨y, mem₁, pending⟩ := setter
  obtain ⟨i, pending⟩ := List.mem_iff_getElem?.mp pending
  obtain ⟨now, earlier, rfl⟩ := List.exists_cons_of_ne_nil (List.ne_nil_of_mem mem)
  obtain ⟨r', i', dependencies, ⟨z, mem₂, placed⟩, begun⟩ := h.committed mem' concerns
  obtain rfl := h.eq_of_placed mem₂ placed mem₁ (.inl (.pending pending))
  exact begun.not_failed h.sound (h.linking?_eq mem known failed)

end Committed

/-! ### Setters that come to listen -/

/-- A setter comes to listen to a module. -/
def Enlists (m m' : Machine C M) (x : SetterId) (d : RecordId) : Prop :=
  x ∉ (m.store.record d).importerSetters ∧ x ∈ (m'.store.record d).importerSetters

/-- A setter has been called for a module, or is to be. -/
def Notified (m : Machine C M) (x : SetterId) (d : RecordId) : Prop :=
  .called x d ∈ m.store.milestones ∨ (x, d) ∈ m.store.queue

section Enlisting

variable {host : Host C M} {ρ ρ' : Roles} {m m' m₁ m₂ : Machine C M}
  {trace earlier : List (Machine C M)} {r d e : RecordId} {x y : SetterId} {i j : Nat}
  {k : JobId} {dependencies left : List Dependency}

/-- A setter that comes to listen to a module is handed over. -/
theorem Traced.of_enlists (h : Traced host ρ (m₂ :: m₁ :: earlier)) (enlists : Enlists m₁ m₂ x d) :
    ∃ ρ₁, Traced host ρ₁ (m₁ :: earlier) ∧ SoundStep host ρ₁ ρ m₁ m₂ ∧
      ∃ r dependencies now left, Hands m₁ m₂ r dependencies now left ∧ ⟨d, some x⟩ ∈ now := by
  obtain ⟨fresh, listens⟩ := enlists
  cases h with
  | step traced step =>
    exact ⟨_, traced, step, (step.listens traced.sequenced listens).resolve_left fresh⟩
  | outside _ pause =>
    rw [pause.change.kept.record] at listens
    exact absurd listens fresh

/-- In every run, a setter that waits to be handed over has never had to do with any module. -/
theorem Traced.fresh (h : Traced host ρ (m :: trace)) (waits : m.Waits x r i)
    (mem : m' ∈ m :: trace) : ¬ m'.Concerns x d := by
  generalize hl : m :: trace = states at h mem
  induction h generalizing m trace with
  | start base resolver memory =>
    cases hl
    obtain rfl := List.mem_singleton.mp mem
    exact not_concerns_start
  | step traced advance ih =>
    cases hl
    rcases List.mem_cons.mp mem with rfl | mem
    · exact (traced.step advance).placement.waits x r i d waits
    · rcases advance.waits waits with waits | registers
      · exact ih waits rfl mem
      · intro concerns
        obtain ⟨later, earlier, states⟩ := List.append_of_mem mem
        obtain ⟨_, traced'⟩ := traced.suffix ⟨later, states.symm⟩ nofun
        have known := traced.lt_of_known mem (traced'.placement.known x d concerns)
        exact absurd known (Nat.not_lt_of_le registers.new.1)
  | outside traced pause ih =>
    cases hl
    rcases List.mem_cons.mp mem with rfl | mem
    · exact (traced.outside pause).placement.waits x r i d waits
    · exact ih (waits.of_pause pause) rfl mem

/-- In every run, a setter has never had to do with any module before it comes to listen to one. -/
theorem Traced.enlists_once (h : Traced host ρ (m₂ :: m₁ :: earlier)) (enlists : Enlists m₁ m₂ x d)
    (mem : m' ∈ m₁ :: earlier) : ¬ m'.Concerns x e := by
  obtain ⟨_, traced, _, _, _, _, _, hands, handed⟩ := h.of_enlists enlists
  obtain ⟨_, waits, _⟩ := hands.place traced.sequenced handed
  exact traced.fresh waits mem

/-- A module that is being linked is not given up as long as host code does not give up. -/
theorem Sound.not_givesUp_of_carries (sound : m.Sound ρ) (carries : m.Carries r dependencies left)
    (calm : m.control ≠ .unwind) (is : ρ.Is k (.link r)) : ¬ m.GivesUp k := by
  rintro (abandoned | ⟨unwinds, _⟩)
  · rw [← (sound.store.links k r is).2] at abandoned
    rcases sound.state_of_carries carries with ⟨w, waits⟩ | running
    · cases waits.symm.trans abandoned
    · cases running.symm.trans abandoned
  · exact calm unwinds

/-- A module that has begun to hand over its setters and is still being linked carries on with the
same dependencies. -/
theorem Committed.of_carries {dependencies' : List Dependency}
    (committed : Committed ρ m r dependencies') (sound : m.Sound ρ)
    (carries : m.Carries r dependencies left) (calm : m.control ≠ .unwind) :
    dependencies' = dependencies := by
  cases committed with
  | handing carries' _ => exact (sound.carries_unique carries' carries).1
  | linked linked => exact absurd linked (sound.not_linked_of_carries carries)
  | givenUp is givesUp => exact absurd givesUp (sound.not_givesUp_of_carries carries calm is)

/-- While a module is being linked, a setter listens only if those for the dependencies before do. -/
theorem Traced.listens_in_order (h : Traced host ρ (m :: trace))
    (carries : m.Carries r dependencies left) (calm : m.control ≠ .unwind) (less : i < j)
    (first : dependencies[i]? = some ⟨d, some x⟩) (second : dependencies[j]? = some ⟨e, some y⟩)
    (mem : m' ∈ m :: trace) (listens : y ∈ (m'.store.record e).importerSetters) :
    x ∈ (m'.store.record d).importerSetters := by
  obtain ⟨later, earlier, states⟩ := List.append_of_mem mem
  have below : m' :: earlier <:+ m :: trace := ⟨later, states.symm⟩
  obtain ⟨ρ', traced, kept⟩ := h.persists below
  obtain ⟨r', i', ⟨z, mem', placed⟩, way⟩ := traced.listens listens
  obtain rfl : r' = r := h.eq_of_placed (below.subset mem') placed List.mem_cons_self
    (carries.placed second)
  have still : ∀ dependencies', Committed ρ' m' r' dependencies' →
      dependencies' = dependencies := fun _ committed =>
    (kept _ stable_committed committed).of_carries h.sound carries calm
  rcases way with (⟨carries', setter, done⟩ | ⟨dependency, _⟩) | ⟨k, is, givesUp⟩
  · obtain rfl := still _ (.handing carries' (Nat.lt_of_le_of_lt (Nat.le_add_left _ _) done))
    have placement := traced.placement
    obtain ⟨_, rfl⟩ := placement.unique y r' i' r' j (carries'.placed setter)
      (carries'.placed second)
    obtain ⟨handed, whole⟩ := traced.sequenced.left r' _ _ carries'
    have heard := traced.handed d carries' whole.symm
    have mem : ⟨d, some x⟩ ∈ handed := by
      rw [← whole] at first done
      rw [List.length_append] at done
      rw [List.getElem?_append_left (by omega)] at first
      exact List.mem_of_getElem? first
    rw [← mem_heard, ← heard] at mem
    exact (List.mem_filter.mp mem).1
  · have linked := traced.staged.dependencies r' fun empty => by
      rw [empty] at dependency
      exact nomatch dependency
    rw [← still [] (.linked linked)] at first
    exact nomatch first
  · rw [← still [] (.givenUp is givesUp)] at first
    exact nomatch first

/-- A setter that has been called, or is to be, stays so as long as host code does not give up. -/
theorem SoundStep.notified (step : SoundStep host ρ ρ' m m') (traced : Traced host ρ (m :: trace))
    (calm : m.control ≠ .unwind) (notified : m.Notified x d) : m'.Notified x d := by
  rcases notified with called | queued
  · exact .inl (step.rule.mem_milestones called)
  · have known := traced.placement.known x d (.inr (.inl queued))
    rcases step.stays_queued traced.paced calm known queued with queued | history
    · exact .inr queued
    · refine .inl (List.mem_filter.mpr ⟨?_, rfl⟩)
      rw [history]
      exact List.mem_cons_self

/-- A setter that has been called, or is to be, stays so until its module has been linked, if host code
does not give up. -/
private theorem stable_notified : Stable host fun ρ m => Committed ρ m r dependencies ∧
    (m.Notified x d ∨ m.Linked r ∨ ∃ k, ρ.Is k (.link r) ∧ m.GivesUp k) where
  step := by
    rintro ρ ρ' m m' _ traced step ⟨committed, way⟩
    refine ⟨stable_committed.step traced step committed, ?_⟩
    rcases way with notified | linked | ⟨k, is, givesUp⟩
    · by_cases calm : m.control = .unwind
      · -- host code gives up, and the job that links the module with it
        cases committed with
        | handing carries less =>
          obtain ⟨k, is, way⟩ := step.sound.of_carries carries
          refine .inr (.inr ⟨k, is.mono step.follow.le, step.givesUp (.inr ⟨calm, ?_⟩)⟩)
          rcases way with ⟨rfl, _⟩ | ⟨_, _, below, _⟩
          · exact absurd less (Nat.lt_irrefl _)
          · exact below.subset (List.mem_cons_of_mem _ List.mem_cons_self)
        | linked linked => exact .inr (.inl (step.linked linked))
        | givenUp is givesUp => exact .inr (.inr ⟨_, is.mono step.follow.le, step.givesUp givesUp⟩)
      · exact .inl (step.notified traced calm notified)
    · exact .inr (.inl (step.linked linked))
    · exact .inr (.inr ⟨k, is.mono step.follow.le, step.givesUp givesUp⟩)
  pause := by
    rintro ρ m m' _ traced pause ⟨committed, way⟩
    refine ⟨committed.pause pause, ?_⟩
    rcases way with (called | queued) | linked | ⟨k, is, givesUp⟩
    · exact .inl (.inl (pause.change.kept.milestones ▸ called))
    · -- nothing is queued at rest
      rw [traced.paced.idle pause.sound (by simp [(reply?_isSome.mp pause.rests).1])] at queued
      exact nomatch queued
    · exact .inr (.inl (pause.linked.mpr linked))
    · exact .inr (.inr ⟨k, is, pause.givesUp givesUp⟩)

/-- While a module is being linked, each of its setters that has come to listen to a module with
something to see has been called for it, or is to be. -/
theorem Traced.notified (h : Traced host ρ (m :: trace)) (carries : m.Carries r dependencies left)
    (calm : m.control ≠ .unwind) (setter : some x ∈ dependencies.map Dependency.setter)
    (below : m₂ :: m₁ :: earlier <:+ m :: trace) (enlists : Enlists m₁ m₂ x d)
    (visible : (m₁.store.record d).IsVisible) : m.Notified x d := by
  obtain ⟨ρ₂, traced₂, kept⟩ := h.persists below
  obtain ⟨_, traced₁, _, r', dependencies', _, _, hands, handed⟩ := traced₂.of_enlists enlists
  obtain ⟨i, waits, _⟩ := hands.place traced₁.sequenced handed
  obtain ⟨⟨d', _⟩, own, rfl⟩ := List.mem_map.mp setter
  obtain ⟨i', own⟩ := List.mem_iff_getElem?.mp own
  obtain rfl : r' = r := h.eq_of_placed
    (below.subset (List.mem_cons_of_mem _ List.mem_cons_self)) (.inl waits)
    List.mem_cons_self (carries.placed own)
  have queued := (hands.told d x handed).resolve_left fun silent => silent.1 visible
  have committed :=
    hands.committed traced₁.sequenced traced₂.staged (List.ne_nil_of_mem handed)
  obtain ⟨_, notified | linked | ⟨k, is, givesUp⟩⟩ :=
    kept _ stable_notified ⟨committed, .inl (.inr queued)⟩
  · exact notified
  · exact absurd linked (h.sound.not_linked_of_carries carries)
  · exact absurd givesUp (h.sound.not_givesUp_of_carries carries calm is)

end Enlisting

/-! ### Modules that have been linked -/

/-- A module has just been linked as its hook has registered it. Its dependencies are given with their
setters. -/
structure Wired (host : Host C M) (m : Machine C M) (trace : List (Machine C M)) (r : RecordId)
    (registration : Registration C) (dependencies : List Dependency) : Prop where
  registered : Registered host (m :: trace) r registration (dependencies.map Dependency.module)
  specifiers : (m.store.record r).specifiers = registration.dependencies
  modules : (m.store.record r).dependencies = dependencies.map Dependency.module
  setters : (m.store.record r).dependencySetters = dependencies.map Dependency.setter
  /-- The numbers of the setters stand for the setters that have been registered. -/
  code : (dependencies.map Dependency.setter).map (Option.map m.store.code?) =
    registration.setters.map (Option.map some)
  distinct : (dependencies.filterMap Dependency.setter).Nodup
  /-- Each setter listens to its dependency and to no other module, once, and in the order of the
  specifiers. -/
  listens : ∀ d, (m.store.record d).listening (dependencies.map Dependency.setter) =
    heard d dependencies
  /-- A setter comes to listen after those for the specifiers before. -/
  ordered : ∀ (i j : Nat) d e x y, i < j → dependencies[i]? = some ⟨d, some x⟩ →
    dependencies[j]? = some ⟨e, some y⟩ → ∀ m' ∈ m :: trace,
      y ∈ (m'.store.record e).importerSetters → x ∈ (m'.store.record d).importerSetters
  /-- Before a setter comes to listen, it has had to do with no module. -/
  once : ∀ m₁ m₂ earlier d x, m₂ :: m₁ :: earlier <:+ m :: trace → Enlists m₁ m₂ x d →
    ∀ m' ∈ m₁ :: earlier, ∀ e, ¬ m'.Concerns x e
  /-- A setter has been called, or is to be, if there was something to see when it came to listen. -/
  told : ∀ m₁ m₂ earlier d x, m₂ :: m₁ :: earlier <:+ m :: trace →
    some x ∈ dependencies.map Dependency.setter → Enlists m₁ m₂ x d →
      (m₁.store.record d).IsVisible → .called x d ∈ m.store.history ∨ (x, d) ∈ m.store.queue

section Wiring

variable {host : Host C M} {ρ ρ' : Roles} {m m' m₀ : Machine C M}
  {trace earlier : List (Machine C M)} {r r' d : RecordId} {s s' : Store C}
  {st st' : List (Frame C)} {c : Control C} {g g' : GroupId} {registration : Registration C}
  {dependencies dependencies' rest rest' : List Dependency}

theorem Registered.mono {states : List (Machine C M)} {targets : List RecordId}
    (h : Registered host trace r registration targets) (below : trace <:+ states) :
    Registered host states r registration targets := by
  obtain ⟨⟨y, y', earlier, inner, adopts⟩, ⟨w, w', earlier', inner', resolves⟩⟩ := h
  exact ⟨⟨y, y', earlier, inner.trans below, adopts⟩,
    ⟨w, w', earlier', inner'.trans below, resolves⟩⟩

/-- Setters are handed over for one module only. -/
theorem HandsOver.eq_module {s₀ : Store C} {st₀ : List (Frame C)}
    (way : HandsOver s₀ st₀ c r dependencies rest s st)
    (way' : HandsOver s₀ st₀ c r' dependencies' rest' s' st') : r = r' := by
  cases way with
  | resumes =>
    cases way' with
    | resumes => rfl
    | starts way' => cases way'
  | starts way =>
    cases way' with
    | resumes => cases way
    | starts way' => cases way <;> cases way' <;> rfl

theorem HandsOver.calm {s₀ : Store C} {st₀ : List (Frame C)}
    (way : HandsOver s₀ st₀ c r dependencies rest s st) : c ≠ .unwind := by
  intro unwinds
  cases way with
  | resumes => cases unwinds
  | starts way => cases way <;> cases unwinds

/-- The job that links a module succeeds with the last setters. -/
theorem Rule.attaches (h : Rule host m m') (next : m'.control = .ended (.ok ()))
    (way : HandsOver m.store m.stack m.control r dependencies rest s st) :
    ∃ dependencies rest, Attaches m m' r dependencies rest := by
  cases h
  case move h =>
    cases h
    case evaluationEnds | graphExecuted =>
      cases way with
      | starts way => cases way
    all_goals exact nomatch next
  case hookEnds | bodyEnds | bodyless =>
    cases way with
    | starts way => cases way
  case publishes after => rcases after.control with h | h <;> exact nomatch h.symm.trans next
  case handsOver after => rcases after.control with h | h <;> exact nomatch h.symm.trans next
  case handedOver silent way' =>
    obtain rfl := way.eq_module way'
    rw [way'.still.record] at silent
    exact ⟨_, _, .intro way' silent rfl⟩
  all_goals exact nomatch next

/-- A module comes to be linked when the job ends that links it. -/
private theorem SoundStep.ends_linking (step : SoundStep host ρ ρ' m m')
    (known : r < m.store.records.size) (before : m.linking? r = none)
    (after : m'.linking? r = some (.ok ())) : m.control = .ended (.ok ()) ∧
      m.stack = .advancing (m.store.record r).linking :: m'.stack := by
  have open' : (m.store.job (m.store.record r).linking).state ≠ .finished (.ok ()) := fun h => by
    rw [linking?_eq_some.mpr h] at before
    cases before
  have links := step.sound.lt_of_links (step.sound.store.linking r known)
  rw [linking?_eq_some, (step.rule.recordChange known).linking_eq] at after
  cases step.rule.advance with
  | same _ state => exact absurd ((state _ links).symm.trans after) open'
  | takes _ _ _ _ state | putsAside _ _ _ state | abandons _ _ _ state =>
    rw [state] at after
    split_ifs at after
    exact absurd after open'
  | ends control _ stack state =>
    rw [state] at after
    split_ifs at after with own
    · cases after
      rw [own.1]
      exact ⟨control, stack⟩
    · exact absurd after open'

/-- A module is linked when its job ends that has succeeded in the step before, with the last
setters. -/
theorem Traced.attaches (h : Traced host ρ (m' :: m :: trace))
    (known : r < m.store.records.size) (before : m.linking? r = none)
    (after : m'.linking? r = some (.ok ())) : ∃ ρ₀ ρ₁ m₀ earlier dependencies rest,
      trace = m₀ :: earlier ∧ Traced host ρ₀ (m₀ :: earlier) ∧ SoundStep host ρ₀ ρ₁ m₀ m ∧
      Attaches m₀ m r dependencies rest ∧ ∃ j, m'.store = m.store.finish j (.ok ()) := by
  cases h with
  | outside _ pause =>
    rw [linking?_eq_some, pause.change.kept.record, pause.change.kept.state_job] at after
    rw [linking?_eq_some.mpr after] at before
    cases before
  | step traced step =>
    obtain ⟨control, stack⟩ := step.ends_linking known before after
    have finish : m'.store = m.store.finish (m.store.record r).linking (.ok ()) := by
      rw [step.next]
      simp [Machine.step, control, endJob, stack, pop, mapStore]
    cases traced with
    | start => cases control
    | outside _ pause => cases pause.stack.symm.trans stack
    | step traced₀ step₀ =>
      have linked : m.Linked r := ⟨known, .inr ⟨control, _, stack⟩⟩
      rcases step₀.linked_cases linked with linked₀ | ⟨_, ⟨_, _, _, way⟩, _⟩ | ⟨_, next, _⟩
      · have known₀ := linked₀.1
        have ended := step₀.ends (step₀.sound.lt_of_links (step₀.sound.store.linking r known₀))
          linked₀.2
        rw [← (step₀.rule.recordChange known₀).linking_eq] at ended
        rw [linking?_eq_some.mpr ended] at before
        cases before
      · obtain ⟨dependencies, rest, attaches⟩ := step₀.rule.attaches control way
        exact ⟨_, _, _, _, dependencies, rest, rfl, traced₀, step₀, attaches, _, finish⟩
      · cases control.symm.trans next

/-- When the last setters of a module have been handed over, it has been linked as its hook has
registered it. -/
theorem Traced.wired (h : Traced host ρ (m :: trace)) (step : SoundStep host ρ ρ' m m')
    (attaches : Attaches m m' r dependencies rest) :
    ∃ registration, Wired host m' (m :: trace) r registration dependencies := by
  have traced' := h.step step
  have hands := attaches.hands h.sequenced h.sound
  have carries := hands.carries
  rw [List.append_nil] at carries
  obtain ⟨modules, setters⟩ := attaches.attached h.sound
  have calm : m.control ≠ .unwind := by
    obtain ⟨way, _, _⟩ := attaches
    exact way.calm
  have known : ∀ x, some x ∈ dependencies.map Dependency.setter → x < m.store.setters.size := by
    intro x own
    obtain ⟨⟨d, _⟩, own, rfl⟩ := List.mem_map.mp own
    obtain ⟨i, own⟩ := List.mem_iff_getElem?.mp own
    exact h.placement.bounded x r i (carries.placed own)
  obtain ⟨registration, registered, specifiers, code⟩ := h.registered carries
  refine ⟨registration, registered.mono (List.suffix_cons _ _), ?_, modules, setters, ?_,
    h.placement.distinct carries, fun d => h.attached d attaches, ?_, ?_, ?_⟩
  · rcases step.rule.specifiers r with same | ⟨_, adopts⟩
    · exact same.trans specifiers
    · obtain ⟨_, control, _⟩ := adopts.ends
      exact absurd (h.staged.of_carries carries)
        (h.sound.not_instantiated_of_hook adopts.stack control)
  · rw [traced'.map_code?_eq (List.mem_cons_of_mem _ List.mem_cons_self) _ known, code]
  · intro i j d e x y less first second m₁ mem listens
    rcases List.mem_cons.mp mem with rfl | mem
    · have heard := mem_heard.mpr (List.mem_of_getElem? first)
      rw [← h.attached d attaches] at heard
      exact (List.mem_filter.mp heard).1
    · exact h.listens_in_order carries calm less first second mem listens
  · intro m₁ m₂ earlier d x below enlists m₃ mem e
    obtain ⟨_, traced⟩ := traced'.suffix below nofun
    exact traced.enlists_once enlists mem
  · intro m₁ m₂ earlier d x below own enlists visible
    have notified : m'.Notified x d := by
      rcases List.suffix_cons_iff.mp below with same | below
      · cases same
        obtain ⟨_, traced, _, _, _, _, _, hands, handed⟩ := traced'.of_enlists enlists
        exact .inr ((hands.told d x handed).resolve_left fun silent => silent.1 visible)
      · exact step.notified h calm (h.notified carries calm own below enlists visible)
    exact notified.imp_left fun called => (List.mem_filter.mp called).1

/-- It stays so when the job that has linked the module ends. -/
theorem Wired.finish {j : JobId} (wired : Wired host m trace r registration dependencies)
    (h : Traced host ρ (m' :: m :: trace)) (finish : m'.store = m.store.finish j (.ok ())) :
    Wired host m' (m :: trace) r registration dependencies := by
  have record : m'.store.record = m.store.record := by rw [finish, finish_same.1]
  have mute := mute_finish m.store j (.ok ())
  rw [← finish] at mute
  have code : m'.store.code? = m.store.code? := by
    funext x
    rw [code?, code?, mute.setters]
  refine ⟨wired.registered.mono (List.suffix_cons _ _), ?_, ?_, ?_, ?_, wired.distinct, ?_, ?_, ?_,
    ?_⟩
  · rw [record, wired.specifiers]
  · rw [record, wired.modules]
  · rw [record, wired.setters]
  · rw [code, wired.code]
  · rw [record]
    exact wired.listens
  · intro i j d e x y less first second m₁ mem
    rcases List.mem_cons.mp mem with rfl | mem
    · rw [record]
      exact wired.ordered i j d e x y less first second m List.mem_cons_self
    · exact wired.ordered i j d e x y less first second m₁ mem
  · intro m₁ m₂ earlier d x below enlists m₃ mem e
    obtain ⟨_, traced⟩ := h.suffix below (List.cons_ne_nil _ _)
    exact traced.enlists_once enlists mem
  · intro m₁ m₂ earlier d x below own enlists visible
    rcases List.suffix_cons_iff.mp below with same | below
    · cases same
      obtain ⟨fresh, listens⟩ := enlists
      rw [record] at listens
      exact absurd listens fresh
    · rw [mute.queue]
      refine (wired.told m₁ m₂ earlier d x below own enlists visible).imp_left fun called => ?_
      have milestones : m'.store.milestones = m.store.milestones := by rw [finish]; simp
      have called : .called x d ∈ m'.store.milestones :=
        milestones ▸ List.mem_filter.mpr ⟨called, rfl⟩
      exact (List.mem_filter.mp called).1

/-- In every run, a module whose linking fails never hands over any of its setters, and none of them
is ever called; and when the linking of a module ends well, each of its setters has been handed over
as its hook has registered it. -/
theorem Run.links_all_or_none (h : Run host trace) :
    (∀ m ∈ trace, ∀ r error x, r < m.store.records.size → m.linking? r = some (.error error) →
      IsSetterOf trace x r → ∀ m' ∈ trace, ∀ d, x ∉ (m'.store.record d).importerSetters ∧
        (x, d) ∉ m'.store.queue ∧ .called x d ∉ m'.store.history) ∧
    (∀ m m' earlier r, m' :: m :: earlier <:+ trace → r < m.store.records.size →
      m.linking? r = none → m'.linking? r = some (.ok ()) →
      ∃ registration dependencies, Wired host m' (m :: earlier) r registration dependencies) := by
  obtain ⟨ρ, traced⟩ := h.exists_roles
  constructor
  · intro m mem r error x known failed setter m' mem' d
    have none := traced.not_concerns mem known failed setter mem' (d := d)
    exact ⟨fun listens => none (.inl listens), fun queued => none (.inr (.inl queued)),
      fun called => none (.inr (.inr (List.mem_filter.mpr ⟨called, rfl⟩)))⟩
  · intro m m' earlier r below known before after
    obtain ⟨_, traced⟩ := traced.suffix below nofun
    obtain ⟨_, _, m₀, earlier, dependencies, rest, rfl, traced₀, step, attaches, j, finish⟩ :=
      traced.attaches known before after
    obtain ⟨registration, wired⟩ := traced₀.wired step attaches
    exact ⟨registration, dependencies, wired.finish traced finish⟩

end Wiring

/-- A module that watches another one twice and itself in between, and one that watches the same module
and imports one that does not exist. The module they watch exports something from its hook. -/
def mixedModules : List (String × Script.Program) :=
  [("x:/a", { dependencies := [("x:/b", some []), ("x:/a", some []), ("x:/b", some [])] }),
   ("x:/b", { start := [.publish [("n", .value .null)]] }),
   ("x:/c", { dependencies := [("x:/b", some []), ("x:/d", none)] })]

/-- The import of the first module is polled, and then one of the other module is started and
polled. -/
def mixedStimuli : List (Stimulus Script.Memory) :=
  [.request (.poll (.waiting 0 2)), .request (.start "x:/c" none), .request (.poll (.waiting 2 9))]

section Mixed

/-- The states that this leads to, the latest first. -/
def mixedTrace : List (Machine Script.Code Script.Memory) :=
  scripted mixedModules "x:/a" mixedStimuli 102

/-- The state in which the last setter of the first module has been handed over. -/
def mixedBefore : Machine Script.Code Script.Memory :=
  (mixedTrace.drop 65).headD (scriptedLoader mixedModules)

/-- The state in which the first module has just been linked. -/
def mixedAfter : Machine Script.Code Script.Memory :=
  (mixedTrace.drop 64).headD (scriptedLoader mixedModules)

theorem Run.links_all_or_none_mixed : Run Script.host mixedTrace ∧
    (∃ m ∈ mixedTrace, 2 < m.store.records.size ∧
      m.linking? 2 = some (.error (.instantiation { scheme := "x", path := "/d" }
        (some { scheme := "x", path := "/c" }) { message := "no module at x:/d" })) ∧
      IsSetterOf mixedTrace 3 2 ∧
      ∀ m' ∈ mixedTrace, ∀ d, 3 ∉ (m'.store.record d).importerSetters ∧
        (3, d) ∉ m'.store.queue ∧ .called 3 d ∉ m'.store.history) ∧
    mixedAfter :: mixedBefore :: mixedTrace.drop 66 <:+ mixedTrace ∧
    0 < mixedBefore.store.records.size ∧ mixedBefore.linking? 0 = none ∧
    mixedAfter.linking? 0 = some (.ok ()) ∧
    (mixedAfter.store.record 0).importerSetters = [1] ∧
    (mixedAfter.store.record 1).importerSetters = [0, 2] ∧
    ∃ registration dependencies, Wired Script.host mixedAfter (mixedBefore :: mixedTrace.drop 66) 0
      registration dependencies := by
  have run : Run Script.host mixedTrace := by
    rw [mixedTrace, Machine.scripted]
    exact .session (.outside (.start _ _ _) rfl (.requests _)) ..
  have fails : ∃ m ∈ mixedTrace, 2 < m.store.records.size ∧
      m.linking? 2 = some (.error (.instantiation { scheme := "x", path := "/d" }
        (some { scheme := "x", path := "/c" }) { message := "no module at x:/d" })) := by
    decide +kernel
  have setter : IsSetterOf mixedTrace 3 2 := by
    show ∃ m ∈ mixedTrace, some 3 ∈ (m.store.record 2).pendingSetters
    decide +kernel
  have long : 65 < mixedTrace.length := by decide +kernel
  have below : mixedAfter :: mixedBefore :: mixedTrace.drop 66 <:+ mixedTrace := by
    rw [mixedAfter, mixedBefore, headD_cons_drop long, headD_cons_drop (Nat.lt_of_succ_lt long)]
    exact List.drop_suffix ..
  have known : 0 < mixedBefore.store.records.size := by decide +kernel
  have before : mixedBefore.linking? 0 = none := by decide +kernel
  have after : mixedAfter.linking? 0 = some (.ok ()) := by decide +kernel
  obtain ⟨none, all⟩ := run.links_all_or_none
  obtain ⟨m, mem, there, failed⟩ := fails
  exact ⟨run, ⟨m, mem, there, failed, setter, none m mem 2 _ 3 there failed setter⟩, below, known,
    before, after, by decide +kernel, by decide +kernel, all _ _ _ 0 below known before after⟩

end Mixed

end Machine

end ModuleSystem.Loader
