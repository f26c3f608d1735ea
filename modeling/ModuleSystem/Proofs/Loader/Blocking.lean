import ModuleSystem.Proofs.Loader.Execution
import ModuleSystem.Proofs.Loader.Progress

/-!
# Failed dependencies

A failed dependency blocks the modules that depend on it. There is one way around that: a module may
be failed by an import of another module while its own body is suspended, and its body may then end
well all the same. Whoever waits for the body goes on.

## Main results

* `Machine.Run.blocked_of_starting` : when a body starts, no dependency is failed but in this way.
-/

namespace ModuleSystem.Loader

variable {C M : Type}

namespace Machine

open Store

section Blocking

variable {host : Host C M} {ρ ρ' : Roles} {m m' : Machine C M} {trace : List (Machine C M)}
  {r d : RecordId} {j : JobId} {body : Option C} {error : LoaderError}

/-- The turn of a module that has waited for jobs comes only as long as it is living. -/
private theorem SoundStep.alive_of_collects (step : SoundStep host ρ ρ' m m') {jobs : List JobId}
    {g : GroupId} {s : Store C}
    (way : Collects m.store m.stack m.control r jobs g s m'.stack)
    (next : m'.control = .work (.runBody r body)) : m.store.isAlive r = true := by
  have rule := step.rule
  cases rule
  case collected way' _ _ alive _ =>
    cases next
    rwa [← way'.still.isAlive]
  case move move => cases move <;> exact nomatch next
  case publishes after | handsOver after =>
    rcases after.control with h | h <;> exact nomatch h.symm.trans next
  case pollWaiting => exact nomatch way
  all_goals exact nomatch next

/-- A job that is about to start a body does so for a living module. -/
theorem Traced.alive_of_runBody (h : Traced host ρ (m :: trace)) (has : m.Has j (.runBody r body)) :
    m.store.isAlive r = true := by
  refine h.invariant (P := fun _ m => ∀ j r body, m.Has j (.runBody r body) →
    m.store.isAlive r = true) (fun _ _ _ _ _ _ has => absurd has not_has_start)
    (fun {ρ ρ' m m' trace} traced step living j r body has => ?_)
    (fun {ρ m m' trace} traced pause _ j r body has => ?_) j r body has
  · rw [step.rule.isAlive]
    rcases step.rule.comes has with before | ⟨new, state⟩ | ⟨_, continues⟩
    · exact living j r body before
    · cases step.newJob new state with
      | turn _ way _ _ state' _ =>
        cases state.symm.trans state'
        exact (traced.descending.of_turn way).1.alive traced.living
      | instantiate _ _ _ state' | link _ _ _ state' | graph _ _ _ state'
          | deferred _ _ _ state' _ _ | ready _ _ _ _ state' => exact nomatch state.symm.trans state'
    · cases continues with
      | collected way _ _ next _ _ => exact step.alive_of_collects way next
  · have before : m.control = .poll j := by
      rcases pause.has has with state | ⟨stack, _⟩ | ⟨stack, _⟩
      · exact traced.bodies.polled j r body state
      all_goals
        obtain ⟨stack', _⟩ := reply?_isSome.mp pause.rests
        exact nomatch stack'.symm.trans stack
    obtain ⟨_, reply, hc⟩ := reply?_isSome.mp pause.rests
    exact nomatch hc.symm.trans before

/-- When the body of a living module ends well, the module is executed, unless it has failed before. -/
private theorem SoundStep.of_bodyEnded (step : SoundStep host ρ ρ' m m') (bodies : m.Bodies)
    (alive : m.store.isAlive d = true) (ended : .bodyEnded d true ∈ m'.store.milestones)
    (fresh : .bodyEnded d true ∉ m.store.milestones) : .body d ∈ m.stack ∧
      ((m'.store.record d).state = .executed ∨
        ∃ error, (m.store.record d).state = .failed error) := by
  have happens := (step.rule.happens_of_mem ended trivial).resolve_left fresh
  obtain ⟨st, code, stack, control⟩ :
      ∃ st code, m.stack = .body d :: st ∧ m.control = .host code := by
    cases happens with
    | bodyEnded stack control => exact ⟨_, _, stack, control⟩
  have active : .body d ∈ m.stack := by rw [stack]; exact List.mem_cons_self
  refine ⟨active, ?_⟩
  have known := (bodies.active d active).linked.1
  have rule := step.rule
  cases rule
  case bodyEnds =>
    cases stack
    rw [record_enter_self (by simpa using known), record_setEvaluation_self (by simpa using known)]
    exact Record.state_enter_cases.imp_right fun ⟨error, failed, _⟩ => ⟨error, failed⟩
  case bodyOrphaned dead =>
    cases stack
    exact nomatch dead.symm.trans alive
  case bodyFails after _ =>
    subst after
    cases stack
    simp [Event.isMilestone, fresh] at ended
  case bodyWaits signal _ _ _ =>
    cases signal <;> simp [fresh] at ended
  case move move => cases move <;> exact absurd ended fresh
  case asks | givesUp => exact absurd ended fresh
  case hookWaits | setterWaits | setterEnds | hookOrphaned | hookFails | hookTooLate
    | hookEnds => cases stack
  case joins way _ | joinWaits way _ _ | joinOrphaned way _ _ _ | joinFails way _ _ _ _
    | gathers way _ _ | gatherWaits way _ _ _ | gathered way _ _ | gatherOrphaned way _ _
    | gatherFails way _ _ | turnDeferred way _ | turnComes way | collects way _ _
    | collectWaits way _ _ _ | collectOrphaned way _ | collectFails way _ _ | collectTooLate way _ _
    | collected way _ _ _ _ =>
    cases control
    cases way
  case handsOver way _ _ | handedOver way =>
    cases control
    cases way with
    | starts way => cases way
  all_goals cases control

/-- A module whose body has ended well has been executed, or it had failed while its body was under
way. -/
theorem Traced.executed_or_failed (h : Traced host ρ (m :: trace))
    (alive : m.store.isAlive d = true) (ended : .bodyEnded d true ∈ m.store.milestones) :
    (∃ x ∈ m :: trace, (x.store.record d).state = .executed) ∨
      ∃ x ∈ trace, .body d ∈ x.stack ∧ ∃ error, (x.store.record d).state = .failed error := by
  generalize hl : m :: trace = states at h
  induction h generalizing m trace with
  | start base resolver memory =>
    cases hl
    exact nomatch ended
  | @step ρ ρ' m m' trace traced step ih =>
    cases hl
    rw [step.rule.isAlive] at alive
    by_cases before : .bodyEnded d true ∈ m.store.milestones
    · rcases ih alive before rfl with ⟨x, mem, executed⟩ | ⟨x, mem, failed⟩
      · exact .inl ⟨x, List.mem_cons_of_mem _ mem, executed⟩
      · exact .inr ⟨x, List.mem_cons_of_mem _ mem, failed⟩
    · obtain ⟨active, executed | failed⟩ := step.of_bodyEnded traced.bodies alive ended before
      · exact .inl ⟨m', List.mem_cons_self, executed⟩
      · exact .inr ⟨m, List.mem_cons_self, active, failed⟩
  | @outside ρ m m' trace traced pause ih =>
    cases hl
    have kept := pause.change.kept
    rw [kept.milestones] at ended
    rcases ih (traced.living.alive_of_pause pause alive) ended rfl with ⟨x, mem, executed⟩ | ⟨x, mem, failed⟩
    · exact .inl ⟨x, List.mem_cons_of_mem _ mem, executed⟩
    · exact .inr ⟨x, List.mem_cons_of_mem _ mem, failed⟩

/-- What has been executed has not failed. -/
theorem Traced.not_failed {x : Machine C M} (h : Traced host ρ (m :: trace)) (mem : x ∈ m :: trace)
    (executed : (x.store.record d).state = .executed) :
    (m.store.record d).state ≠ .failed error := by
  intro failed
  rcases h.leadsTo_or_repeats mem with forward | ⟨_, repeats⟩
  · rw [executed, failed] at forward
    exact nomatch forward
  · exact nomatch failed.symm.trans repeats.state

/-- Whenever the body of a module is started, none of its dependencies has failed, but for those from
which the module can be reached along dependencies. A dependency can also have failed while its body
was under way, by an import of another module; then its body has ended well all the same. Host code
may start imports, but not poll them within another one, and must not give up within one. -/
theorem Run.blocked_of_starting (h : Run host (m :: trace)) (calm : ∀ x ∈ m :: trace, x.Calm)
    (starts : m.starting? = some r) (dependency : d ∈ (m.store.record r).dependencies)
    (apart : ¬ m.Reaches d r) :
    (∀ error, m.store.stateOf d ≠ .failed error) ∨ .bodyEnded d true ∈ m.store.history ∧
      ∃ x ∈ trace, .body d ∈ x.stack ∧ ∃ error, x.store.stateOf d = .failed error := by
  obtain ⟨ρ, traced⟩ := h.exists_roles
  obtain ⟨code, hc⟩ := starting?_eq_some.mp starts
  obtain ⟨j, _, _, has⟩ := traced.sound.has_of_work hc
  rcases ((traced.turns calm).starts j r _ has).2.2 d dependency with done | reaches
  · rcases done with ended | ⟨executed, _⟩
    · have alive := traced.living.dependencies r (traced.alive_of_runBody has) d dependency
      rcases traced.executed_or_failed alive ended with ⟨x, mem, executed⟩ | failed
      · exact .inl fun _ => traced.not_failed mem executed
      · exact .inr ⟨(List.mem_filter.mp ended).1, failed⟩
    · exact .inl fun _ => traced.not_failed List.mem_cons_self executed
  · exact absurd reaches apart

theorem Run.blocked_of_starting_gated : gatedEnd.starting? = some 0 ∧
    1 ∈ (gatedEnd.store.record 0).dependencies ∧ ¬ gatedEnd.Reaches 1 0 ∧
    ∀ error, gatedEnd.store.stateOf 1 ≠ .failed error := by
  have starts : gatedEnd.starting? = some 0 := by decide +kernel
  have dependency : 1 ∈ (gatedEnd.store.record 0).dependencies := by decide +kernel
  have apart : ¬ gatedEnd.Reaches 1 0 := fun reaches =>
    absurd (eq_of_reaches_of_nil (by decide +kernel) reaches) (by decide)
  have executed : gatedEnd.store.stateOf 1 = .executed := by decide +kernel
  refine ⟨starts, dependency, apart, fun error failed => ?_⟩
  rcases Run.blocked_of_starting run_gated calm_gated starts dependency apart with blocked | released
  · exact blocked error failed
  · exact nomatch executed.symm.trans failed

end Blocking

end Machine

end ModuleSystem.Loader
