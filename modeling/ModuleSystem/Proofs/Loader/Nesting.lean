import ModuleSystem.Proofs.Loader.Barrier

/-!
# Nested activities

An activity waits for those above it, and a job is advanced by one activity only. So the work of a
job, or the activity that it is about, is determined by the machine (`Machine.Sound.has_unique`,
`Machine.Sound.above_unique`).

Host code may poll an import, and then an import is advanced within another one. As long as it does
not, no import is ever within another activity (`Machine.IsFlat`), and while a body runs, nothing is
above it but host code and what delivers its exports.

Host code may also give up, and then the jobs that it runs within are abandoned.

## Main definitions

* `Machine.hostPolls`, `Machine.hostGivesUp` : host code polls an import, or gives up within one.
* `Machine.IsFlat` : no import is within another activity.

## Main results

* `Machine.Traced.isFlat` : it is so in every run in which host code does not poll imports.
* `Machine.Traced.not_abandoned` : in every run in which host code does not give up within an import,
  no job is abandoned.
* `Awaits.above_body` : what is above a body that runs.
-/

namespace ModuleSystem.Loader

variable {C M : Type}

/-- What is handed to host code and to the activities that serve it. -/
def Slot.IsHost : Slot → Prop
  | .reply | .host | .drain | .drained => True
  | _ => False

namespace Machine

open Store

/-! ### What a job is about -/

section Jobs

variable {ρ : Roles} {m : Machine C M} {j : JobId} {w w' : Work C} {frame frame' : Frame C}
  {st st' : List (Frame C)}

/-- A job is advanced by one activity only. -/
theorem Sound.not_mem_below (sound : m.Sound ρ) (h : .advancing j :: st <:+ m.stack) :
    .advancing j ∉ st := by
  obtain ⟨above, stack⟩ := h
  have nodup := sound.nodup
  rw [← stack, advanced_append] at nodup
  exact fun mem => (List.nodup_cons.mp (List.nodup_append.mp nodup).2.1).1 (mem_advanced.mpr mem)

/-- A job has one piece of work left. -/
theorem Sound.has_unique (sound : m.Sound ρ) (h : m.Has j w) (h' : m.Has j w') : w = w' := by
  have idle : ∀ {w : Work C} {st}, m.stack = .advancing j :: st →
      (m.store.job j).state ≠ .waiting w := fun stack => sound.not_waiting (by
    rw [stack]
    exact List.mem_cons_self)
  cases h with
  | waits state =>
    cases h' with
    | waits state' => exact JobState.waiting.inj (state.symm.trans state')
    | next stack _ | paused stack _ => exact absurd state (idle stack)
  | next stack hc =>
    cases h' with
    | waits state => exact absurd state (idle stack)
    | next _ hc' => exact Control.work.inj (hc.symm.trans hc')
    | paused _ hc' => exact nomatch hc.symm.trans hc'
  | paused stack hc =>
    cases h' with
    | waits state => exact absurd state (idle stack)
    | next _ hc' => exact nomatch hc.symm.trans hc'
    | paused _ hc' => exact Control.paused.inj (hc.symm.trans hc')

/-- A job that is about an activity has no work left apart from it. -/
theorem Sound.not_has (sound : m.Sound ρ) (h : frame :: .advancing j :: st <:+ m.stack) :
    ¬ m.Has j w := by
  have mem : .advancing j ∈ m.stack := h.subset (by simp)
  have top : ∀ {st'}, m.stack ≠ .advancing j :: st' := by
    intro st' stack
    refine sound.not_mem_below ⟨[], stack.symm⟩ ?_
    rw [stack] at h
    rcases List.suffix_cons_iff.mp h with heq | below
    · cases heq
      exact List.mem_cons_self
    · exact below.subset (by simp)
  intro has
  cases has with
  | waits state => exact sound.not_waiting (mem_advanced.mpr mem) state
  | next stack _ | paused stack _ => exact top stack

/-- A job is about one activity only. -/
theorem Sound.above_unique (sound : m.Sound ρ) (h : frame :: .advancing j :: st <:+ m.stack)
    (h' : frame' :: .advancing j :: st' <:+ m.stack) : frame = frame' := by
  have same : ∀ {frame frame' : Frame C} {st st'}, frame' :: .advancing j :: st' <:+ m.stack →
      frame :: .advancing j :: st <:+ frame' :: .advancing j :: st' → frame = frame' := by
    intro frame frame' st st' outer inner
    have fresh := sound.not_mem_below ((List.suffix_cons _ _).trans outer)
    rcases List.suffix_cons_iff.mp inner with heq | inner
    · exact (List.cons.inj heq).1
    · rcases List.suffix_cons_iff.mp inner with heq | inner
      · obtain ⟨_, rfl⟩ := List.cons.inj heq
        exact absurd List.mem_cons_self fresh
      · exact absurd (inner.subset (by simp)) fresh
  rcases List.suffix_or_suffix_of_suffix h h' with inner | inner
  · exact same h' inner
  · exact (same h inner).symm

end Jobs

/-! ### Imports within other activities -/

/-- Host code polls an import. -/
def hostPolls (m : Machine C M) : Bool :=
  match m.control with
  | .serve (.poll _) => !m.stack.isEmpty
  | _ => false

/-- No import is within another activity. -/
def IsFlat (st : List (Frame C)) : Prop :=
  ∀ r below, .importing r :: below <:+ st → below = []

section Flat

variable {host : Host C M} {ρ : Roles} {m : Machine C M} {trace : List (Machine C M)}

theorem IsFlat.of_suffix {st st' : List (Frame C)} (h : IsFlat st) (below : st' <:+ st) :
    IsFlat st' :=
  fun r _ h' => h r _ (h'.trans below)

/-- As long as host code does not poll imports, no import is within another activity. -/
theorem Traced.isFlat (h : Traced host ρ (m :: trace))
    (quiet : ∀ m' ∈ m :: trace, m'.hostPolls = false) : IsFlat m.stack := by
  refine h.invariant_of (P := fun _ m => IsFlat m.stack) (fun _ _ _ r below h => ?_)
    (fun {_ _ m m' _} _ quiet step flat r below mem => ?_) (fun _ pause _ r below h => ?_) quiet
  · exact nomatch List.suffix_nil.mp h
  · rcases step.rule.started mem with below | ⟨pushed, stack | may⟩
    · exact flat r _ below
    · cases pushed with
      | plain h => exact h.elim
      | importing hc stack' =>
        have silent := quiet m (by simp)
        rw [hostPolls, hc] at silent
        have empty : m.stack = [] := by simpa using silent
        rw [← empty]
        exact (List.cons.inj (stack.symm.trans stack')).2
    · exact may.elim
  · rw [pause.stack] at h
    exact nomatch List.suffix_nil.mp h

end Flat

/-! ### Host code that gives up -/

/-- Host code gives up within a job that is being advanced. -/
def hostGivesUp (m : Machine C M) : Bool :=
  match m.control with
  | .unwind => !(advanced m.stack).isEmpty
  | _ => false

section Aborts

variable {host : Host C M} {ρ ρ' : Roles} {m m' : Machine C M} {trace : List (Machine C M)}
  {j : JobId}

/-- Only host code that gives up within a job has the job abandoned. -/
private theorem SoundStep.not_abandoned (step : SoundStep host ρ ρ' m m')
    (holds : m.hostGivesUp = false) (kept : ∀ j, (m.store.job j).state ≠ .abandoned) :
    (m'.store.job j).state ≠ .abandoned := by
  intro state
  rcases Nat.lt_or_ge j m.store.jobs.size with hj | hj
  · cases step.rule.advance with
    | same _ same => exact kept j ((same j hj).symm.trans state)
    | takes _ _ _ _ same | putsAside _ _ _ same | ends _ _ _ same =>
      rw [same] at state
      split_ifs at state
      exact kept j state
    | abandons hc _ stack _ =>
      rw [hostGivesUp, hc, stack] at holds
      exact nomatch holds
  · have hj' : j < m'.store.jobs.size := Nat.lt_of_not_le fun hle =>
      nomatch state.symm.trans (state_job_of_size_le hle)
    cases step.rule.makes.newJob (fun _ _ h => step.sound.store.lt_of_lookup h) hj hj' with
    | instantiate _ _ _ state' | link _ _ _ state' | graph _ _ _ state' | deferred _ _ _ state' _ _
        | turn _ _ _ _ state' _ | ready _ _ _ _ state' => exact nomatch state.symm.trans state'

/-- As long as host code does not give up within a job, no job is abandoned. -/
theorem Traced.not_abandoned (h : Traced host ρ (m :: trace))
    (holds : ∀ m' ∈ m :: trace, m'.hostGivesUp = false) : (m.store.job j).state ≠ .abandoned := by
  refine h.invariant_of (P := fun _ m => ∀ j, (m.store.job j).state ≠ .abandoned)
    (fun base resolver memory j => ?_) (fun {_ _ m m' _} _ holds step kept j => ?_)
    (fun _ pause kept j => ?_) holds j
  · rw [state_job_of_size_le (Nat.zero_le _)]
    nofun
  · exact step.not_abandoned (holds m (by simp)) kept
  · rw [pause.change.kept.state_job]
    exact kept j

end Aborts

end Machine

/-- What is handed to an activity is what is handed to the stack, or comes from the activity right
above. -/
theorem Awaits.next_above {ρ : Roles} {slot : Slot} {stack st : List (Frame C)}
    (h : Awaits ρ slot stack) (below : st <:+ stack) : ∃ slot', Awaits ρ slot' st ∧
      (stack = st ∧ slot = slot' ∨
        ∃ frame slot'', frame.Fits ρ slot'' slot' ∧ frame :: st <:+ stack) := by
  obtain ⟨above, stack'⟩ := below
  rcases List.eq_nil_or_concat above with rfl | ⟨above, frame, rfl⟩
  · rw [List.nil_append] at stack'
    subst stack'
    exact ⟨slot, h, .inl ⟨rfl, rfl⟩⟩
  · rw [List.concat_eq_append, List.append_assoc, List.singleton_append] at stack'
    obtain ⟨_, slot', fits, awaits⟩ := h.of_suffix ⟨above, stack'⟩
    exact ⟨slot', awaits, .inr ⟨frame, _, fits, above, stack'⟩⟩

/-- Above a body that runs there are only host code and the activities that serve it, if no import
is within another activity. -/
theorem Awaits.above_body {ρ : Roles} {slot : Slot} {above st : List (Frame C)} {r : RecordId}
    (h : Awaits ρ slot (above ++ .body r :: st))
    (flat : Machine.IsFlat (above ++ .body r :: st)) :
    slot.IsHost ∧ Machine.advanced above = [] := by
  induction above generalizing slot with
  | nil =>
    rcases h with _ | ⟨fits, _⟩
    cases fits
    exact ⟨trivial, rfl⟩
  | cons frame above ih =>
    rcases h with _ | ⟨fits, below⟩
    obtain ⟨isHost, idle⟩ := ih below (flat.of_suffix (List.suffix_cons _ _))
    cases fits with
    | setter | asking | draining | publishing => exact ⟨trivial, idle⟩
    | importing _ =>
      have empty := flat _ _ (List.suffix_refl _)
      exact absurd empty (by simp)
    | _ => exact isHost.elim

end ModuleSystem.Loader
