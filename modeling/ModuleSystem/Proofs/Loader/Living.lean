import ModuleSystem.Proofs.Loader.Bodies

/-!
# Modules of one loader

When a loader is dropped, all its modules are dropped with it, and what is registered later belongs
to another loader. So a module whose loader is still there depends on modules of this loader only
(`Machine.Living`).

## Main results

* `Machine.Traced.living` : in every run, the dependencies of a living module are living.
-/

namespace ModuleSystem.Loader

variable {C M : Type}

namespace Machine

open Store

/-- The modules that a module is to be linked to are living, if it is. -/
def LivesWith (m : Machine C M) (r : RecordId) (dependencies : List Dependency) : Prop :=
  m.store.isAlive r = true → ∀ d ∈ dependencies, m.store.isAlive d.module = true

/-- Living modules depend on living ones. -/
structure Living (m : Machine C M) : Prop where
  bounded : m.store.retired ≤ m.store.records.size
  registered : ∀ e ∈ m.store.registry, m.store.isAlive e.2 = true
  resolving : ∀ j r dependencies g, m.Has j (.awaitDependencies r dependencies g) →
    m.LivesWith r dependencies
  joining : ∀ r dependencies g i, .joining r dependencies g i ∈ m.stack → m.LivesWith r dependencies
  handingOver : ∀ r dependencies rest, .handingOver r dependencies rest ∈ m.stack →
    m.LivesWith r dependencies
  dependencies : ∀ r, m.store.isAlive r = true → ∀ d ∈ (m.store.record r).dependencies,
    m.store.isAlive d = true

section Living

variable {host : Host C M} {ρ ρ' : Roles} {m m' : Machine C M} {trace : List (Machine C M)}
  {r : RecordId} {st : List (Frame C)} {s : Store C} {dependencies rest : List Dependency}
  {g : GroupId}

theorem LivesWith.step (h : m.LivesWith r dependencies) (rule : Rule host m m') :
    m'.LivesWith r dependencies := by
  intro alive d hd
  rw [rule.isAlive] at alive ⊢
  exact h alive d hd

theorem Living.of_joins (living : m.Living) (sound : m.Sound ρ)
    (way : Joins m.store m.stack m.control r dependencies g s st) : m.LivesWith r dependencies := by
  have control := sound.control
  generalize hst : m.stack = stack at way control
  generalize hc : m.control = c at way control
  cases way with
  | starts l =>
    obtain ⟨j, awaits, _⟩ := control
    obtain ⟨_, rfl, _⟩ := awaits.of_work
    exact living.resolving j r dependencies g (.next hst hc)
  | settles l =>
    exact living.joining r dependencies g _ (by rw [hst]; exact List.mem_cons_self)

theorem Living.of_handsOver (living : m.Living) (sound : m.Sound ρ)
    (way : HandsOver m.store m.stack m.control r dependencies rest s st) :
    m.LivesWith r dependencies := by
  generalize hst : m.stack = stack at way
  generalize hc : m.control = c at way
  cases way with
  | resumes =>
    exact living.handingOver r dependencies rest (by rw [hst]; exact List.mem_cons_self)
  | starts way =>
    subst hst hc
    exact living.of_joins sound way

private theorem Living.registered_step (living : m.Living) (rule : Rule host m m') :
    ∀ e ∈ m'.store.registry, m'.store.isAlive e.2 = true := by
  intro e he
  rw [rule.isAlive]
  rcases rule.mem_registry he with he | ⟨new, _⟩
  · exact living.registered e he
  · exact isAlive_eq_true.mpr (Nat.le_trans living.bounded new)

private theorem Living.dependencies_step (living : m.Living) (step : SoundStep host ρ ρ' m m')
    (alive : m'.store.isAlive r = true) {d : RecordId}
    (hd : d ∈ (m'.store.record r).dependencies) : m'.store.isAlive d = true := by
  have isAlive := step.rule.isAlive
  rw [isAlive] at alive ⊢
  have keeps := living.dependencies r alive d
  rcases Nat.lt_or_ge r m.store.records.size with hr | hr
  · cases step.rule.recordChange hr with
    | same record => exact keeps (by rwa [record.dependencies] at hd)
    | failed _ same record =>
      exact keeps (by simpa only [record, Record.poison_same, same.dependencies] using hd)
    | attached way _ _ record =>
      simp only [record, Record.enter_same, List.mem_map] at hd
      obtain ⟨dependency, mem, rfl⟩ := hd
      exact living.of_handsOver step.sound way alive dependency mem
    | imported _ _ _ _ _ record | hooked _ _ _ _ record | adopted _ _ _ _ _ record
        | deferred _ _ _ record | comes _ _ _ _ record | collected _ _ _ _ _ _ record
        | suspended _ _ _ record | ended _ _ _ _ _ record | bodyless _ _ _ _ record
        | bodyFailed _ _ _ record => exact keeps (by simpa [record] using hd)
  · rcases Nat.lt_or_ge r m'.store.records.size with hr' | hr'
    · cases step.rule.makes.newRecord hr hr' with
      | made record _ _ _ | defined _ record _ _ => simp [record] at hd
    · simp [record_of_size_le hr', Record.blank] at hd

theorem Living.step (living : m.Living) (step : SoundStep host ρ ρ' m m') : m'.Living where
  bounded := by
    rw [step.rule.retired]
    exact Nat.le_trans living.bounded step.rule.size_records_le
  registered := living.registered_step step.rule
  resolving j r dependencies g h := by
    rcases step.rule.comes h with has | ⟨hj, state⟩ | ⟨_, continues⟩
    · exact (living.resolving j r dependencies g has).step step.rule
    · have lt : j < m'.store.jobs.size := Nat.lt_of_not_le fun hle =>
        nomatch state.symm.trans (state_job_of_size_le hle)
      obtain ⟨_, _, tells⟩ := step.follow.tells hj lt
      exact nomatch tells.kind?_eq state
    · cases continues with
      | resolved _ _ registered _ _ =>
        intro _ d hd
        obtain ⟨e, he, same⟩ := registered d hd
        rw [← same]
        exact living.registered_step step.rule e he
      | joins way _ => exact (living.of_joins step.sound way).step step.rule
  joining r dependencies g i h := by
    rcases step.rule.pushed h with h | pushed
    · exact (living.joining r dependencies g i h).step step.rule
    · cases pushed with
      | plain h => exact h.elim
      | joining way _ => exact (living.of_joins step.sound way).step step.rule
  handingOver r dependencies rest h := by
    rcases step.rule.pushed h with h | pushed
    · exact (living.handingOver r dependencies rest h).step step.rule
    · cases pushed with
      | plain h => exact h.elim
      | handingOver hands =>
        obtain ⟨way, _, _, _⟩ := hands
        exact (living.of_handsOver step.sound way).step step.rule
  dependencies _ alive _ hd := living.dependencies_step step alive hd

/-- What is living after something has happened outside was so before. -/
theorem Living.alive_of_pause (living : m.Living) (pause : SoundPause ρ m m')
    (alive : m'.store.isAlive r = true) : m.store.isAlive r = true := by
  rw [isAlive_eq_true] at alive ⊢
  rcases pause.change.kept.loader with ⟨_, retired⟩ | ⟨_, retired⟩
  · rwa [← retired]
  · exact Nat.le_trans living.bounded (retired ▸ alive)

/-- When the loader is dropped, no module that there is goes on living. -/
theorem Living.pause (living : m.Living) (pause : SoundPause ρ m m') : m'.Living := by
  have kept := pause.change.kept
  have empty : ∀ {frame : Frame C}, frame ∉ m'.stack := by simp [pause.stack]
  rcases kept.loader with ⟨registry, retired⟩ | ⟨registry, retired⟩
  · have isAlive : m'.store.isAlive = m.store.isAlive := by
      funext r
      simp only [Store.isAlive, retired]
    refine ⟨?_, ?_, fun j r dependencies g h => ?_, fun _ _ _ _ h => absurd h empty,
      fun _ _ _ h => absurd h empty, ?_⟩
    · rw [retired, kept.size_records]
      exact living.bounded
    · rw [registry, isAlive]
      exact living.registered
    · rw [LivesWith, isAlive]
      exact living.resolving j r dependencies g (pause.has h)
    · rw [kept.record, isAlive]
      exact living.dependencies
  · have dead : ∀ {r}, r < m.store.records.size → m'.store.isAlive r ≠ true := by
      intro r hr alive
      rw [isAlive_eq_true, retired] at alive
      exact Nat.not_le_of_lt hr alive
    refine ⟨?_, by simp [registry], fun j r dependencies g h alive => ?_,
      fun _ _ _ _ h => absurd h empty, fun _ _ _ h => absurd h empty, fun r alive d hd => ?_⟩
    · exact Nat.le_of_eq (retired.trans kept.size_records.symm)
    · cases pause.sound.fits_of_has (pause.has h) with
      | awaitDependencies is _ _ => exact absurd alive (dead (pause.sound.store.links j r is).1)
    · rw [kept.record] at hd
      rcases Nat.lt_or_ge r m.store.records.size with hr | hr
      · exact absurd alive (dead hr)
      · simp [record_of_size_le hr, Record.blank] at hd

/-- In every run, living modules depend on living ones. -/
theorem Traced.living (h : Traced host ρ (m :: trace)) : m.Living := by
  refine h.invariant (P := fun _ m => m.Living) (fun base resolver memory => ?_)
    (fun _ step living => living.step step) fun _ pause living => living.pause pause
  refine ⟨Nat.le_refl _, nofun, fun _ _ _ _ h => absurd h not_has_start, nofun, nofun,
    fun r _ d hd => ?_⟩
  rw [record_start] at hd
  exact nomatch hd

end Living

end Machine

end ModuleSystem.Loader
