import ModuleSystem.Proofs.Loader.Flow
import ModuleSystem.Proofs.Loader.Run
import ModuleSystem.Proofs.Loader.Soundness

/-!
# Runs with their roles

Every run of a loader can be told together with the roles of its jobs and groups: its states are
sound, its steps follow rules, and from one state to the next roles are only added (`Traced`). So
what holds in every state of every run is proved by induction over traced runs, where each step is a
rule or something that happens outside.

## Main definitions

* `Store.Kept` : what happens to a store outside.
* `Machine.Traced` : runs with their roles.

## Main results

* `Machine.Run.exists_roles` : every run is traced by some roles.
-/

namespace ModuleSystem.Loader

variable {C M : Type}

/-- What happens outside leaves modules, jobs and groups as they are. The loader may be dropped, and
all modules with it. -/
structure Store.Kept (s s' : Store C) : Prop where
  record : s'.record = s.record
  size_records : s'.records.size = s.records.size
  state_job : ∀ j, (s'.job j).state = (s.job j).state
  size_jobs : s'.jobs.size = s.jobs.size
  members : ∀ g, Store.SameMembers (s.group g) (s'.group g)
  size_groups : s'.groups.size = s.groups.size
  milestones : s'.milestones = s.milestones
  loader : s'.registry = s.registry ∧ s'.retired = s.retired ∨
    s'.registry = [] ∧ s'.retired = s.records.size

namespace Machine

open Store

section Outside

variable {ρ : Roles} {m m' : Machine C M}

theorem Outside.kept (h : Outside m m') : m.store.Kept m'.store := by
  cases h with
  | requests | remembers =>
    exact ⟨rfl, rfl, fun _ => rfl, rfl, fun _ => .refl _, rfl, rfl, .inl ⟨rfl, rfl⟩⟩
  | signals name =>
    have told := told_tell
      { m.store with
        awaited := (m.store.awaited.partition fun waiter => waiter.1 == name).2 }
      ((m.store.awaited.partition fun waiter => waiter.1 == name).1.map Prod.snd)
    exact ⟨told.record, told.size_records, told.state_job, told.size_jobs, told.members,
      told.size_groups, told.milestones, .inl ⟨told.registry, told.retired⟩⟩
  | dropsLoader | makesLoader =>
    exact ⟨rfl, rfl, fun _ => rfl, rfl, fun _ => .refl _, rfl, rfl, .inr ⟨rfl, rfl⟩⟩

/-- What happens outside leaves the activities alone, or starts to serve a request. -/
theorem Outside.activities (h : Outside m m') :
    m'.stack = m.stack ∧ m'.control = m.control ∨
      m'.stack = [] ∧ ∃ request, m'.control = .serve request := by
  cases h with
  | requests request => exact .inr ⟨rfl, request, rfl⟩
  | remembers | signals | dropsLoader | makesLoader => exact .inl ⟨rfl, rfl⟩

theorem reply?_eq_some {reply : Reply} :
    m.reply? = some reply ↔ m.stack = [] ∧ m.control = .reply reply := by
  obtain ⟨s, memory, stack, control⟩ := m
  cases stack <;> cases control <;> simp [reply?]

theorem reply?_isSome : m.reply?.isSome ↔ m.stack = [] ∧ ∃ reply, m.control = .reply reply := by
  simp [Option.isSome_iff_exists, reply?_eq_some]

theorem Sound.outside (sound : m.Sound ρ) (rests : m.reply?.isSome) (h : Outside m m') :
    m'.Sound ρ := by
  have kept := h.kept
  obtain ⟨empty, reply, hc⟩ := reply?_isSome.mp rests
  have store := sound.store
  have stack : m'.stack = [] := by
    rcases h.activities with h | h
    · rw [h.1, empty]
    · exact h.1
  refine ⟨⟨?_, ?_, ?_, ?_, ?_, ?_, ?_, ?_, ?_, ?_, ?_, ?_, ?_⟩, ?_, ?_, ?_⟩
  · rw [kept.size_jobs, store.kinds]
  · rw [kept.size_groups, store.owners]
  · rcases kept.loader with ⟨registry, _⟩ | ⟨registry, _⟩
    · rw [registry, kept.size_records]
      exact store.registered
    · rw [registry]
      exact fun _ h => nomatch h
  · simpa only [kept.record, kept.size_records] using store.instantiation
  · simpa only [kept.record, kept.size_records] using store.linking
  · simpa only [kept.record] using store.evaluation
  · simpa only [kept.record] using store.topLevel
  · simpa only [kept.record] using store.dependencies
  · simpa only [kept.record, kept.size_records] using store.instantiates
  · simpa only [kept.record, kept.size_records] using store.links
  · simpa only [kept.record, kept.size_records] using store.evaluates
  · simpa only [kept.record, kept.size_records, kept.state_job] using store.ready
  · simpa only [kept.state_job] using store.work
  · have control := sound.control
    rw [hc, empty] at control
    rcases h.activities with h | ⟨_, request, h⟩
    · rw [stack, h.2, hc]
      exact control
    · rw [stack, h]
      exact .nil
  · simpa only [kept.state_job, stack, empty] using sound.running
  · rw [stack]
    exact .nil

end Outside

/-! ### Traced runs -/

/-- A step between sound machines, with the roles before it and after it. -/
structure SoundStep (host : Host C M) (ρ ρ' : Roles) (m m' : Machine C M) : Prop where
  sound : m.Sound ρ
  busy : m.reply? = none
  next : m' = m.step host
  rule : Rule host m m'
  follow : ρ.Follow ρ' m m'
  sound' : m'.Sound ρ'

/-- What happens outside between sound machines. -/
structure SoundPause (ρ : Roles) (m m' : Machine C M) : Prop where
  sound : m.Sound ρ
  rests : m.reply?.isSome
  change : Outside m m'
  sound' : m'.Sound ρ

section Pauses

variable {ρ : Roles} {m m' : Machine C M}

/-- No activity is under way outside. -/
theorem SoundPause.stack (pause : SoundPause ρ m m') : m'.stack = [] := by
  rcases pause.change.activities with ⟨h, _⟩ | ⟨h, _⟩
  · rw [h, (reply?_isSome.mp pause.rests).1]
  · exact h

/-- Outside, requests are made and replies are looked at. -/
theorem SoundPause.control (pause : SoundPause ρ m m') :
    (∃ reply, m'.control = .reply reply) ∨ ∃ request, m'.control = .serve request := by
  rcases pause.change.activities with ⟨_, h⟩ | ⟨_, h⟩
  · rw [h]
    exact .inl (reply?_isSome.mp pause.rests).2
  · exact .inr h

/-- Outside, work is only left of jobs that wait. -/
theorem SoundPause.has (pause : SoundPause ρ m m') {j : JobId} {w : Work C} (h : m'.Has j w) :
    m.Has j w := by
  cases h with
  | waits state =>
    rw [pause.change.kept.state_job] at state
    exact .waits state
  | next stack _ | paused stack _ => exact nomatch pause.stack.symm.trans stack

end Pauses

/-- Runs with their roles. -/
inductive Traced (host : Host C M) : Roles → List (Machine C M) → Prop
  | start (base : Option Url) (resolver : Resolver) (memory : M) :
      Traced host {} [{ store := { base, resolver }, memory }]
  | step {ρ ρ' m m' trace} (h : Traced host ρ (m :: trace)) (step : SoundStep host ρ ρ' m m') :
      Traced host ρ' (m' :: m :: trace)
  | outside {ρ m m' trace} (h : Traced host ρ (m :: trace)) (pause : SoundPause ρ m m') :
      Traced host ρ (m' :: m :: trace)

section Traced

variable {host : Host C M} {ρ : Roles} {m : Machine C M} {trace : List (Machine C M)}

/-- A new loader is sound without any roles. -/
theorem sound_start (base : Option Url) (resolver : Resolver) (memory : M) :
    Sound (C := C) {} { store := { base, resolver }, memory } where
  store := by
    have blank : ∀ r, (Store.record { base, resolver } r : Record C) = .blank := fun r =>
      record_of_size_le (Nat.zero_le r)
    refine ⟨rfl, rfl, nofun, nofun, nofun, fun r j h => ?_, fun r j h => ?_, fun r d h => ?_,
      nofun, nofun, nofun, nofun, fun j w h => ?_⟩
    · rw [blank] at h
      exact nomatch h
    · rw [blank] at h
      exact nomatch h
    · rw [blank] at h
      exact nomatch h
    · rw [state_job_of_size_le (Nat.zero_le _)] at h
      exact nomatch h
  control := ⟨.nil, fun _ _ h => nomatch h⟩
  running j := iff_of_false (by rw [state_job_of_size_le (Nat.zero_le _)]; simp) (by simp [advanced])
  nodup := .nil

theorem Traced.sound (h : Traced host ρ (m :: trace)) : m.Sound ρ := by
  cases h with
  | start base resolver memory => exact sound_start base resolver memory
  | step _ step => exact step.sound'
  | outside _ pause => exact pause.sound'

/-- What holds of a new loader, and is kept by each step and by all that happens outside as long as
every state so far is of some sort, holds in every state of every run of such states. -/
theorem Traced.invariant_of {P : Roles → Machine C M → Prop} {Q : Machine C M → Prop}
    (start : ∀ base resolver memory, P {} { store := { base, resolver }, memory })
    (step : ∀ {ρ ρ' m m' trace}, Traced host ρ (m :: trace) → (∀ x ∈ m' :: m :: trace, Q x) →
      SoundStep host ρ ρ' m m' → P ρ m → P ρ' m')
    (pause : ∀ {ρ m m' trace}, Traced host ρ (m :: trace) → SoundPause ρ m m' → P ρ m → P ρ m')
    (h : Traced host ρ (m :: trace)) (sort : ∀ x ∈ m :: trace, Q x) : P ρ m := by
  generalize hl : m :: trace = states at h
  induction h generalizing m trace with
  | start base resolver memory =>
    cases hl
    exact start base resolver memory
  | step traced advance ih =>
    cases hl
    exact step traced sort advance (ih (fun x hx => sort x (List.mem_cons_of_mem _ hx)) rfl)
  | outside traced rest ih =>
    cases hl
    exact pause traced rest (ih (fun x hx => sort x (List.mem_cons_of_mem _ hx)) rfl)

/-- What holds of a new loader, and is kept by each step and by all that happens outside, holds in
every state of every run. -/
theorem Traced.invariant {P : Roles → Machine C M → Prop}
    (start : ∀ base resolver memory, P {} { store := { base, resolver }, memory })
    (step : ∀ {ρ ρ' m m' trace}, Traced host ρ (m :: trace) → SoundStep host ρ ρ' m m' → P ρ m →
      P ρ' m')
    (pause : ∀ {ρ m m' trace}, Traced host ρ (m :: trace) → SoundPause ρ m m' → P ρ m → P ρ m')
    (h : Traced host ρ (m :: trace)) : P ρ m :=
  h.invariant_of (Q := fun _ => True) start (fun traced _ advance => step traced advance) pause
    fun _ _ => trivial

/-- Something is kept by each step and by all that happens outside. -/
structure Stable (host : Host C M) (P : Roles → Machine C M → Prop) : Prop where
  step : ∀ {ρ ρ' m m' trace}, Traced host ρ (m :: trace) → SoundStep host ρ ρ' m m' → P ρ m → P ρ' m'
  pause : ∀ {ρ m m' trace}, Traced host ρ (m :: trace) → SoundPause ρ m m' → P ρ m → P ρ m'

/-- What is kept by each step and by all that happens outside holds ever after. -/
theorem Traced.persists {m' : Machine C M} {earlier : List (Machine C M)}
    (h : Traced host ρ (m :: trace)) (below : m' :: earlier <:+ m :: trace) :
    ∃ ρ', Traced host ρ' (m' :: earlier) ∧
      ∀ P : Roles → Machine C M → Prop, Stable host P → P ρ' m' → P ρ m := by
  generalize hl : m :: trace = states at h below
  induction h generalizing m trace with
  | start base resolver memory =>
    cases hl
    cases List.suffix_cons_iff.mp below with
    | inl same =>
      cases same
      exact ⟨{}, .start base resolver memory, fun _ _ => id⟩
    | inr below => exact nomatch List.suffix_nil.mp below
  | step traced advance ih =>
    cases hl
    cases List.suffix_cons_iff.mp below with
    | inl same =>
      cases same
      exact ⟨_, traced.step advance, fun _ _ => id⟩
    | inr below =>
      obtain ⟨ρ', traced', kept⟩ := ih rfl below
      exact ⟨ρ', traced', fun P stable before =>
        stable.step traced advance (kept P stable before)⟩
  | outside traced pause ih =>
    cases hl
    cases List.suffix_cons_iff.mp below with
    | inl same =>
      cases same
      exact ⟨_, traced.outside pause, fun _ _ => id⟩
    | inr below =>
      obtain ⟨ρ', traced', kept⟩ := ih rfl below
      exact ⟨ρ', traced', fun P stable before =>
        stable.pause traced pause (kept P stable before)⟩

/-- What is kept by each step and by all that happens outside, and depends on the state only, holds
ever after. -/
theorem Traced.persists_of_mem {P : Machine C M → Prop} {m' : Machine C M}
    (h : Traced host ρ (m :: trace)) (mem : m' ∈ m :: trace)
    (stable : Stable host fun _ m => P m) (before : P m') : P m := by
  obtain ⟨later, earlier, states⟩ := List.append_of_mem mem
  obtain ⟨_, _, kept⟩ := h.persists ⟨later, states.symm⟩
  exact kept _ stable before

section Start

variable {base : Option Url} {resolver : Resolver} {memory : M} {r : RecordId} {j : JobId}

theorem record_start : (Store.record { base, resolver } r : Record C) = .blank :=
  record_of_size_le (Nat.zero_le r)

theorem not_has_start {w : Work C} :
    ¬ Has ({ store := { base, resolver }, memory } : Machine C M) j w := by
  rintro (state | ⟨_, hc⟩ | ⟨_, hc⟩)
  · rw [state_job_of_size_le (Nat.zero_le _)] at state
    exact nomatch state
  · exact nomatch hc
  · exact nomatch hc

end Start

/-- The handle of an import that waits names the job that does it. -/
theorem Traced.issued (h : Traced host ρ trace) {r : RecordId} {j : JobId}
    (issued : Issued trace (.waiting r j)) : ρ.Is j (.evaluate r) := by
  have head : ∀ {ρ : Roles} {m : Machine C M}, m.Sound ρ →
      m.control = .reply (.started (.waiting r j)) → ρ.Is j (.evaluate r) := by
    intro ρ m sound hc
    have control := sound.control
    rw [hc] at control
    exact control.2 r j rfl
  induction h with
  | start base resolver memory =>
    obtain ⟨m, hm, hc⟩ := issued
    obtain rfl := List.mem_singleton.mp hm
    exact nomatch hc
  | step _ step ih =>
    obtain ⟨m, hm, hc⟩ := issued
    rcases List.mem_cons.mp hm with rfl | hm
    · exact head step.sound' hc
    · exact (ih ⟨m, hm, hc⟩).mono step.follow.le
  | outside _ pause ih =>
    obtain ⟨m, hm, hc⟩ := issued
    rcases List.mem_cons.mp hm with rfl | hm
    · exact head pause.sound' hc
    · exact ih ⟨m, hm, hc⟩

theorem belongs_of_busy (sound : m.Sound ρ) (busy : m.reply? = none) :
    Belongs m.control m.stack := by
  refine sound.control.belongs fun reply hc empty => ?_
  have rests := reply?_isSome.mpr ⟨empty, reply, hc⟩
  rw [busy] at rests
  exact nomatch rests

/-- Every run of a loader is traced by some roles. -/
theorem Run.exists_roles (h : Run host trace) : ∃ ρ, Traced host ρ trace := by
  induction h with
  | start base resolver memory => exact ⟨{}, .start base resolver memory⟩
  | @step m trace _ busy issued ih =>
    obtain ⟨ρ, traced⟩ := ih
    have rule : Rule host m (m.step host) := step_rule m (belongs_of_busy traced.sound busy)
    obtain ⟨ρ', follow, sound'⟩ := traced.sound.step rule fun r j hc =>
      traced.issued (issued _ hc)
    exact ⟨ρ', .step traced ⟨traced.sound, busy, rfl, rule, follow, sound'⟩⟩
  | outside _ rests change ih =>
    obtain ⟨ρ, traced⟩ := ih
    have sound' := traced.sound.outside rests change
    exact ⟨ρ, .outside traced ⟨traced.sound, rests, change, sound'⟩⟩

end Traced

end Machine

end ModuleSystem.Loader
