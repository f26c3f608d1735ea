import ModuleSystem.Proofs.Loader.Turns

/-!
# The order of execution

A body that a module has had does not get lost: it is in the record, or held by the job that starts
it, or has been started, unless the module has failed (`Machine.Lodged`). So a module that is
executed without its body having been started has never had one. With the order of turns
(`Machine.Traced.turns`) it follows that the body of a module is started only after those of its
dependencies, but for the ones that depend on the module in turn.

## Main results

* `Machine.Run.done_of_starting` : the order of execution.
-/

namespace ModuleSystem.Loader

variable {C M : Type}

namespace Machine

open Store

section Lodged

variable {host : Host C M} {ρ ρ' : Roles} {m m' : Machine C M} {trace : List (Machine C M)}
  {r : RecordId}

/-- The body of a module has not been lost. -/
def Lodged (m : Machine C M) (r : RecordId) : Prop :=
  (m.store.record r).body ≠ none ∨ (∃ error, (m.store.record r).state = .failed error) ∨
    m.HoldsBody r ∨ .bodyStarted r ∈ m.store.milestones

/-- A body that is in the record stays there until the turn of the module comes, or it fails. -/
private theorem Bodies.lodged_of_body (bodies : m.Bodies) (step : SoundStep host ρ ρ' m m')
    (body : (m.store.record r).body ≠ none) : m'.Lodged r := by
  have hr : r < m.store.records.size := Nat.lt_of_not_le fun hle =>
    body (by rw [record_of_size_le hle]; rfl)
  have poisoned : ∀ {x : Record C} {error}, (m.store.record r).state = x.state →
      m'.store.record r = x.poison error → m'.Lodged r := by
    intro x error state record
    have settled : (x.poison error).state = .executed ∨
        ∃ error', (x.poison error).state = .failed error' := Record.state_poison_cases
    rcases settled with executed | failed
    · rw [Record.state_poison, ← state] at executed
      split_ifs at executed
      exact absurd (bodies.taken r (.inr executed)) body
    · exact .inr (.inl (record ▸ failed))
  cases step.rule.recordChange hr with
  | same record => exact .inl (by rwa [record.body])
  | failed _ same record => exact poisoned same.state.symm record
  | bodyFailed _ _ _ record =>
    refine poisoned ?_ record
    rfl
  | adopted stack hc _ _ _ _ =>
    exact absurd (bodies.adopted r body) (step.sound.not_instantiated_of_hook stack hc)
  | comes _ _ next job _ =>
    obtain ⟨code, hcode⟩ := Option.ne_none_iff_exists'.mp body
    exact .inr (.inr (.inl ⟨code, .inr ⟨_, next, hcode ▸ job.waits⟩⟩))
  | collected _ next _ _ _ _ _ =>
    obtain ⟨code, hcode⟩ := Option.ne_none_iff_exists'.mp body
    exact .inr (.inr (.inl ⟨code, .inl (hcode ▸ next)⟩))
  | attached _ _ listened record => exact .inl (by simpa [record, listened.body] using body)
  | imported _ _ _ _ _ record | hooked _ _ _ _ record | deferred _ _ _ record
      | suspended _ _ _ record | ended _ _ _ _ _ record | bodyless _ _ _ _ record =>
    exact .inl (by simpa [record] using body)

theorem SoundStep.lodged (step : SoundStep host ρ ρ' m m') (bodies : m.Bodies)
    (h : m.Lodged r) : m'.Lodged r := by
  rcases h with body | ⟨error, failed⟩ | ⟨code, hc | ⟨j, hc, state⟩⟩ | started
  · exact bodies.lodged_of_body step body
  · have hr : r < m.store.records.size := Nat.lt_of_not_le fun hle => by
      rw [record_of_size_le hle] at failed
      exact nomatch failed
    exact .inr (.inl ⟨error, (step.rule.recordChange hr).transition.failed failed⟩)
  · refine .inr (.inr (.inr ?_))
    rw [(step.of_body hc).2.2]
    exact List.mem_cons_self
  · exact .inr (.inr (.inl ⟨code, .inl (step.of_poll hc state).2.1⟩))
  · exact .inr (.inr (.inr (step.rule.mem_milestones started)))

theorem SoundPause.lodged (pause : SoundPause ρ m m') (h : m.Lodged r) : m'.Lodged r := by
  have kept := pause.change.kept
  rw [Lodged, kept.record, kept.milestones]
  rcases h with body | failed | holds | started
  · exact .inl body
  · exact .inr (.inl failed)
  · obtain ⟨_, reply, hc⟩ := reply?_isSome.mp pause.rests
    obtain ⟨_, hc' | ⟨_, hc', _⟩⟩ := holds <;> exact nomatch hc.symm.trans hc'
  · exact .inr (.inr (.inr started))

/-- A body that a module has ever had has not been lost. -/
theorem Traced.lodged (h : Traced host ρ (m :: trace)) {x : Machine C M} (mem : x ∈ m :: trace)
    (body : (x.store.record r).body ≠ none) : m.Lodged r := by
  generalize hl : m :: trace = states at h
  induction h generalizing m trace with
  | start base resolver memory =>
    cases hl
    obtain rfl := List.mem_singleton.mp mem
    exact .inl body
  | step traced step ih =>
    cases hl
    rcases List.mem_cons.mp mem with rfl | mem
    · exact .inl body
    · exact step.lodged traced.bodies (ih mem rfl)
  | outside traced pause ih =>
    cases hl
    rcases List.mem_cons.mp mem with rfl | mem
    · exact .inl body
    · exact pause.lodged (ih mem rfl)

/-- What is executed without its body having been started has never had a body. -/
theorem Traced.never_had_body (h : Traced host ρ (m :: trace))
    (executed : (m.store.record r).state = .executed)
    (fresh : .bodyStarted r ∉ m.store.milestones) :
    ∀ x ∈ m :: trace, (x.store.record r).body = none := by
  intro x mem
  by_contra body
  rcases h.lodged mem body with body | ⟨error, failed⟩ | holds | started
  · exact body (h.bodies.taken r (.inr executed))
  · exact nomatch failed.symm.trans executed
  · exact h.bodies.heldState r holds executed
  · exact fresh started

end Lodged

section Order

variable {host : Host C M} {m : Machine C M} {trace : List (Machine C M)} {r d : RecordId}

instance (m : Machine C M) : Decidable m.Calm :=
  decidable_of_iff (m.hostPolls = false ∧ m.hostGivesUp = false)
    ⟨fun ⟨quiet, holds⟩ => ⟨quiet, holds⟩, fun ⟨quiet, holds⟩ => ⟨quiet, holds⟩⟩

/-- A module that has been executed has had its body end well, or has never had one. -/
theorem Traced.done_cases (h : Traced host ρ (m :: trace)) (done : m.Done r) :
    .bodyEnded r true ∈ m.store.history ∨ (m.store.record r).state = .executed ∧
      ∀ x ∈ m :: trace, (x.store.record r).body = none := by
  rcases done with ended | ⟨executed, fresh⟩
  · exact .inl (List.mem_filter.mp ended).1
  · exact .inr ⟨executed, h.never_had_body executed fresh⟩

/-- Whenever the body of a module is started, the bodies of its dependencies have ended well, but for
those from which the module can be reached along dependencies and those that have never had a body;
these have been executed. Host code may start imports, but not poll them within another one, and must
not give up within one. -/
theorem Run.done_of_starting (h : Run host (m :: trace)) (calm : ∀ x ∈ m :: trace, x.Calm)
    (starts : m.starting? = some r) (dependency : d ∈ (m.store.record r).dependencies)
    (apart : ¬ m.Reaches d r) :
    .bodyEnded d true ∈ m.store.history ∨ (m.store.record d).state = .executed ∧
      ∀ x ∈ m :: trace, (x.store.record d).body = none := by
  obtain ⟨ρ, traced⟩ := h.exists_roles
  obtain ⟨code, hc⟩ := starting?_eq_some.mp starts
  obtain ⟨j, _, _, has⟩ := traced.sound.has_of_work hc
  rcases ((traced.turns calm).starts j r _ has).2.2 d dependency with done | reaches
  · exact traced.done_cases done
  · exact absurd reaches apart

/-- What has been executed has had its body end well, or has never had one, as long as host code
neither polls imports nor gives up within one. -/
theorem Run.done_of_executed (h : Run host (m :: trace)) (calm : ∀ x ∈ m :: trace, x.Calm)
    (executed : (m.store.record r).state = .executed) :
    .bodyEnded r true ∈ m.store.history ∨ ∀ x ∈ m :: trace, (x.store.record r).body = none := by
  obtain ⟨ρ, traced⟩ := h.exists_roles
  exact (traced.done_cases ((traced.turns calm).executed r executed)).imp_right And.right

end Order

/-- A module and a dependency of it whose body waits for a gate. -/
def gatedModules : List (String × Script.Program) :=
  [("x:/a", { dependencies := [("x:/b", none)], body := some (.steps []) }),
   ("x:/b", { body := some (.steps [.wait "g"]) })]

/-- The import is polled, the gate is opened, and the import is polled again. -/
def gatedStimuli : List (Stimulus Script.Memory) :=
  [.request (.poll (.waiting 0 2)), .remember fun memory => memory.settleGate "g" (.ok ()),
   .signal "g", .request (.poll (.waiting 0 2))]

section Gated

/-- What the import comes to when it is polled for the second time. -/
def gatedEnd : Machine Script.Code Script.Memory :=
  scriptedEnd gatedModules "x:/a" gatedStimuli 69

/-- The states before. -/
def gatedTrace : List (Machine Script.Code Script.Memory) :=
  (scripted gatedModules "x:/a" gatedStimuli 69).tail

theorem run_gated : Run Script.host (gatedEnd :: gatedTrace) :=
  .scripted gatedModules "x:/a" gatedStimuli 69

theorem calm_gated : ∀ x ∈ gatedEnd :: gatedTrace, x.Calm := by
  decide +kernel

theorem body_gated : ¬ ∀ x ∈ gatedEnd :: gatedTrace, (x.store.record 1).body = none := by
  decide +kernel

theorem Run.done_of_starting_gated : gatedEnd.starting? = some 0 ∧
    1 ∈ (gatedEnd.store.record 0).dependencies ∧ ¬ gatedEnd.Reaches 1 0 ∧
    .bodyEnded 1 true ∈ gatedEnd.store.history := by
  have starts : gatedEnd.starting? = some 0 := by decide +kernel
  have dependency : 1 ∈ (gatedEnd.store.record 0).dependencies := by decide +kernel
  have apart : ¬ gatedEnd.Reaches 1 0 := fun reaches =>
    absurd (eq_of_reaches_of_nil (by decide +kernel) reaches) (by decide)
  exact ⟨starts, dependency, apart,
    (Run.done_of_starting run_gated calm_gated starts dependency apart).resolve_right
      fun executed => body_gated executed.2⟩

theorem Run.done_of_executed_gated : (gatedEnd.store.record 1).state = .executed ∧
    .bodyEnded 1 true ∈ gatedEnd.store.history := by
  have executed : (gatedEnd.store.record 1).state = .executed := by decide +kernel
  exact ⟨executed, (Run.done_of_executed run_gated calm_gated executed).resolve_right body_gated⟩

end Gated

end Machine

end ModuleSystem.Loader
