import ModuleSystem.Proofs.Loader.Deliveries

/-!
# Setters that are handed over

The setters that a module has registered are pending until the module is linked. Then they are handed
over to its dependencies one after the other (`Machine.Carries`, `Machine.Hands`), each of them once
(`Machine.Sequenced`). This file says where a setter comes from that a dependency or the queue knows.

## Main results

* `Machine.Traced.sequenced` : the setters of a module are handed over in order, in every run.
* `Machine.SoundStep.concerns` : a setter has to do with a module as before a step, or is handed over
  to it.
-/

namespace ModuleSystem.Loader

variable {C M : Type}

namespace Machine

open Store

/-! ### Modules that are being linked -/

/-- A module is being linked to its dependencies, and the setters for those in `left` are still to be
handed over. -/
inductive Carries (m : Machine C M) (r : RecordId) (dependencies : List Dependency) :
    List Dependency → Prop
  | resolving {j g} (has : m.Has j (.awaitDependencies r dependencies g)) :
      Carries m r dependencies dependencies
  | joining {g i} (mem : .joining r dependencies g i ∈ m.stack) :
      Carries m r dependencies dependencies
  | handingOver {left} (mem : .handingOver r dependencies left ∈ m.stack) :
      Carries m r dependencies left

section Carries

variable {host : Host C M} {ρ ρ' : Roles} {m m' : Machine C M} {r : RecordId} {s : Store C}
  {st : List (Frame C)} {dependencies dependencies' left left' rest : List Dependency} {g : GroupId}

/-- A module is being linked by its job: this has it left to look at the dependencies, or is about
an activity that does so. -/
theorem Sound.of_carries (sound : m.Sound ρ) (h : m.Carries r dependencies left) :
    ∃ j, ρ.Is j (.link r) ∧
      (left = dependencies ∧ (∃ g, m.Has j (.awaitDependencies r dependencies g)) ∨
        ∃ frame st, frame :: .advancing j :: st <:+ m.stack ∧
          (left = dependencies ∧ (∃ g i, frame = .joining r dependencies g i) ∨
            frame = .handingOver r dependencies left)) := by
  obtain ⟨slot, awaits⟩ := sound.control.awaits
  cases h with
  | resolving has =>
    cases sound.fits_of_has has with
    | awaitDependencies is _ _ => exact ⟨_, is, .inl ⟨rfl, _, has⟩⟩
  | joining mem =>
    obtain ⟨above, st, stack⟩ := List.append_of_mem mem
    obtain ⟨_, _, fits, awaits⟩ := awaits.of_suffix ⟨above, stack.symm⟩
    cases fits with
    | joining is _ _ _ _ =>
      obtain ⟨_, rfl, _⟩ := awaits.of_work
      exact ⟨_, is, .inr ⟨_, _, ⟨above, stack.symm⟩, .inl ⟨rfl, _, _, rfl⟩⟩⟩
  | handingOver mem =>
    obtain ⟨above, st, stack⟩ := List.append_of_mem mem
    obtain ⟨_, _, fits, awaits⟩ := awaits.of_suffix ⟨above, stack.symm⟩
    cases fits with
    | handingOver is _ =>
      obtain ⟨_, rfl, _⟩ := awaits.of_work
      exact ⟨_, is, .inr ⟨_, _, ⟨above, stack.symm⟩, .inr rfl⟩⟩

/-- A module is being linked at one place only. -/
theorem Sound.carries_unique (sound : m.Sound ρ) (h : m.Carries r dependencies left)
    (h' : m.Carries r dependencies' left') : dependencies = dependencies' ∧ left = left' := by
  obtain ⟨j, is, h⟩ := sound.of_carries h
  obtain ⟨j', is', h'⟩ := sound.of_carries h'
  obtain rfl : j = j' := (sound.store.links j r is).2.symm.trans (sound.store.links j' r is').2
  rcases h with ⟨rfl, g, has⟩ | ⟨frame, st, below, about⟩
  · rcases h' with ⟨rfl, g', has'⟩ | ⟨frame', st', below', _⟩
    · cases sound.has_unique has has'
      exact ⟨rfl, rfl⟩
    · exact absurd has (sound.not_has below')
  · rcases h' with ⟨_, g', has'⟩ | ⟨frame', st', below', about'⟩
    · exact absurd has' (sound.not_has below)
    · have same := sound.above_unique below below'
      rcases about with ⟨rfl, g, i, rfl⟩ | rfl
      · rcases about' with ⟨rfl, g', i', rfl⟩ | rfl
        · cases same
          exact ⟨rfl, rfl⟩
        · exact nomatch same
      · rcases about' with ⟨_, g', i', rfl⟩ | rfl
        · exact nomatch same
        · cases same
          exact ⟨rfl, rfl⟩

/-- A module that is being linked is there. -/
theorem Sound.lt_of_carries (sound : m.Sound ρ) (h : m.Carries r dependencies left) :
    r < m.store.records.size := by
  obtain ⟨j, is, _⟩ := sound.of_carries h
  exact (sound.store.links j r is).1

/-- The job of a module that is being linked waits for something, or is being advanced. -/
theorem Sound.state_of_carries (sound : m.Sound ρ) (h : m.Carries r dependencies left) :
    (∃ w, (m.store.job (m.store.record r).linking).state = .waiting w) ∨
      (m.store.job (m.store.record r).linking).state = .running := by
  obtain ⟨j, is, h⟩ := sound.of_carries h
  rw [(sound.store.links j r is).2]
  rcases h with ⟨_, g, has⟩ | ⟨frame, st, below, _⟩
  · exact (sound.state_of_has has).imp_left fun waits => ⟨_, waits⟩
  · exact .inr (sound.running_of_mem (below.subset (List.mem_cons_of_mem _ List.mem_cons_self)))

/-- A module is being linked as long as its job has not ended. -/
theorem Sound.not_finished_of_carries (sound : m.Sound ρ) (h : m.Carries r dependencies left)
    {outcome : Outcome} : (m.store.job (m.store.record r).linking).state ≠ .finished outcome := by
  intro finished
  rcases sound.state_of_carries h with ⟨w, waits⟩ | running
  · cases waits.symm.trans finished
  · cases running.symm.trans finished

/-- A module that is being linked has not been linked. -/
theorem Sound.not_linked_of_carries (sound : m.Sound ρ) (h : m.Carries r dependencies left) :
    ¬ m.Linked r := by
  rintro ⟨_, finished | ⟨hc, st', stack⟩⟩
  · exact sound.not_finished_of_carries h finished
  · obtain ⟨j, is, h⟩ := sound.of_carries h
    rw [(sound.store.links j r is).2] at stack
    rcases h with ⟨_, g, state | ⟨_, hc'⟩ | ⟨_, hc'⟩⟩ | ⟨frame, st, below, _⟩
    · have running := sound.running_of_mem (stack ▸ List.mem_cons_self)
      exact nomatch state.symm.trans running
    · exact nomatch hc.symm.trans hc'
    · exact nomatch hc.symm.trans hc'
    · refine sound.not_mem_below ⟨[], stack.symm⟩ ?_
      rw [stack] at below
      rcases List.suffix_cons_iff.mp below with heq | below
      · obtain ⟨_, rfl⟩ := List.cons.inj heq
        exact List.mem_cons_self
      · exact below.subset (List.mem_cons_of_mem _ List.mem_cons_self)

theorem Joins.carries (sound : m.Sound ρ)
    (way : Joins m.store m.stack m.control r dependencies g s st) :
    m.Carries r dependencies dependencies := by
  have control := sound.control
  generalize hst : m.stack = stack at way control
  generalize hc : m.control = c at way control
  cases way with
  | starts l =>
    obtain ⟨j, awaits, _⟩ := control
    obtain ⟨_, rfl, _⟩ := awaits.of_work
    exact .resolving (.next hst hc)
  | settles l => exact .joining (by rw [hst]; exact List.mem_cons_self)

theorem HandsOver.carries (sound : m.Sound ρ)
    (way : HandsOver m.store m.stack m.control r dependencies rest s st) :
    m.Carries r dependencies rest := by
  generalize hst : m.stack = stack at way
  generalize hc : m.control = c at way
  cases way with
  | resumes => exact .handingOver (by rw [hst]; exact List.mem_cons_self)
  | starts way =>
    subst hst hc
    exact way.carries sound

/-- How a module comes to be linked, or comes further. -/
inductive Carried (m m' : Machine C M) (r : RecordId) (dependencies left : List Dependency) : Prop
  | same (h : m.Carries r dependencies left)
  | resolved {code} (stack : m.stack = .linking r :: m'.stack) (control : m.control = .polled code)
      (all : left = dependencies)
      (setters : dependencies.map Dependency.setter <+: (m.store.record r).pendingSetters)
      (cleared : (m'.store.record r).pendingSetters = [])
  | hands {before dependency} (h : HandsOn m m' r dependencies before dependency left)

theorem SoundStep.carried (step : SoundStep host ρ ρ' m m') (h : m'.Carries r dependencies left) :
    Carried m m' r dependencies left := by
  cases h with
  | @resolving j g has =>
    rcases step.rule.comes has with has | ⟨hj, state⟩ | ⟨_, continues⟩
    · exact .same (.resolving has)
    · have lt : j < m'.store.jobs.size := Nat.lt_of_not_le fun hle =>
        nomatch state.symm.trans (state_job_of_size_le hle)
      obtain ⟨_, _, tells⟩ := step.follow.tells hj lt
      exact nomatch tells.kind?_eq state
    · cases continues with
      | resolved stack hc _ setters cleared =>
        have control := step.sound.control
        rw [hc, stack] at control
        obtain ⟨_, _ | ⟨fits, _⟩, _⟩ := control
        cases fits with
        | linking is _ => exact .resolved stack hc rfl setters (cleared (step.sound.store.links _ r is).1)
      | joins way _ => exact .same (way.carries step.sound)
  | joining mem =>
    rcases step.rule.pushed mem with mem | pushed
    · exact .same (.joining mem)
    · cases pushed with
      | plain h => exact h.elim
      | joining way _ => exact .same (way.carries step.sound)
  | handingOver mem =>
    rcases step.rule.pushed mem with mem | pushed
    · exact .same (.handingOver mem)
    · cases pushed with
      | plain h => exact h.elim
      | handingOver hands => exact .hands hands

/-- Outside, no module comes to be linked. -/
theorem Carries.of_pause (h : m'.Carries r dependencies left) (pause : SoundPause ρ m m') :
    m.Carries r dependencies left := by
  have empty : ∀ {frame : Frame C}, frame ∉ m'.stack := by simp [pause.stack]
  cases h with
  | resolving has => exact .resolving (pause.has has)
  | joining mem | handingOver mem => exact absurd mem empty

theorem not_carries_start {base : Option Url} {resolver : Resolver} {memory : M} :
    ¬ Carries ({ store := { base, resolver }, memory } : Machine C M) r dependencies left := by
  rintro (has | mem | mem)
  · exact not_has_start has
  · exact nomatch mem
  · exact nomatch mem

end Carries

/-! ### Setters are handed over once -/

/-- The setters of a module are pending until it is linked, and then handed over in order. -/
structure Sequenced (m : Machine C M) : Prop where
  left : ∀ r dependencies left, m.Carries r dependencies left → left <:+ dependencies
  carried : ∀ r dependencies left, m.Carries r dependencies left →
    (m.store.record r).pendingSetters = []
  linked : ∀ r, (m.store.record r).dependencies ≠ [] → (m.store.record r).pendingSetters = []

section Sequenced

variable {host : Host C M} {ρ ρ' : Roles} {m m' : Machine C M} {trace : List (Machine C M)}
  {r : RecordId} {dependencies left : List Dependency}

theorem Staged.of_carries (staged : m.Staged ρ) (h : m.Carries r dependencies left) :
    m.Instantiated r := by
  cases h with
  | resolving has => exact staged.resolving _ r dependencies _ has
  | joining mem => exact staged.joining r dependencies _ _ mem
  | handingOver mem => exact staged.handingOver r dependencies left mem

theorem Sequenced.step (sequenced : m.Sequenced) (staged : m.Staged ρ)
    (step : SoundStep host ρ ρ' m m') : m'.Sequenced where
  left r dependencies left h := by
    cases step.carried h with
    | same h => exact sequenced.left r dependencies left h
    | resolved _ _ all _ _ => exact all ▸ List.suffix_refl _
    | hands hands =>
      obtain ⟨way, _, _, _⟩ := hands
      have suffix := sequenced.left r dependencies _ (way.carries step.sound)
      exact ((List.suffix_cons _ _).trans (List.suffix_append _ _)).trans suffix
  carried r dependencies left h := by
    have before : ∀ {left}, m.Carries r dependencies left →
        (m'.store.record r).pendingSetters = [] := by
      intro left h
      rcases step.rule.pendingSetters r with same | none | ⟨_, _, stack, control, _⟩
      · exact same.trans (sequenced.carried r dependencies left h)
      · exact none
      · exact absurd (staged.of_carries h) (step.sound.not_instantiated_of_hook stack control)
    cases step.carried h with
    | same h => exact before h
    | resolved _ _ _ _ cleared => exact cleared
    | hands hands =>
      obtain ⟨way, _, _, _⟩ := hands
      exact before (way.carries step.sound)
  linked r h := by
    have before : (m.store.record r).dependencies ≠ [] →
        (m'.store.record r).pendingSetters = [] := by
      intro h
      rcases step.rule.pendingSetters r with same | none | ⟨_, _, stack, control, _⟩
      · exact same.trans (sequenced.linked r h)
      · exact none
      · exact absurd (staged.instantiated r (staged.dependencies r h))
          (step.sound.not_instantiated_of_hook stack control)
    cases step.rule.outlet r with
    | same keeps => exact before (keeps.dependencies ▸ h)
    | adopted _ _ store =>
      rw [store, record_adopt_keeps Record.dependencies fun _ _ _ _ => rfl] at h
      exact before h
    | published _ _ record =>
      rw [record] at h
      exact before h
    | attached attaches _ _ =>
      obtain ⟨way, _, _⟩ := attaches
      have carries := way.carries step.sound
      rcases step.rule.pendingSetters r with same | none | ⟨_, _, stack, control, _⟩
      · exact same.trans (sequenced.carried r _ _ carries)
      · exact none
      · exact absurd (staged.of_carries carries)
          (step.sound.not_instantiated_of_hook stack control)
    | defined _ record =>
      rw [record] at h
      exact absurd rfl h

theorem Sequenced.pause (sequenced : m.Sequenced) (pause : SoundPause ρ m m') : m'.Sequenced := by
  have carries : ∀ {r dependencies left}, m'.Carries r dependencies left →
      m.Carries r dependencies left := fun h => h.of_pause pause
  have record := pause.change.kept.record
  refine ⟨fun r dependencies left h => sequenced.left r _ _ (carries h),
    fun r dependencies left h => ?_, fun r h => ?_⟩
  · rw [record]
    exact sequenced.carried r _ _ (carries h)
  · rw [record] at h ⊢
    exact sequenced.linked r h

/-- The setters of a module are handed over in order, in every run. -/
theorem Traced.sequenced (h : Traced host ρ (m :: trace)) : m.Sequenced := by
  refine h.invariant (P := fun _ m => m.Sequenced) (fun base resolver memory => ?_)
    (fun traced step sequenced => sequenced.step traced.staged step)
    fun _ pause sequenced => sequenced.pause pause
  refine ⟨fun r dependencies left h => absurd h not_carries_start, fun r dependencies left h => absurd h not_carries_start,
    fun r h => ?_⟩
  rw [record_start] at h ⊢
  rfl

end Sequenced

/-! ### Steps that hand over setters -/

/-- The setters for the dependencies in `now` are handed over in a step, and those for the
dependencies in `left` are still to be. -/
structure Hands (m m' : Machine C M) (r : RecordId) (dependencies now left : List Dependency) :
    Prop where
  carries : m.Carries r dependencies (now ++ left)
  goesOn : m'.Carries r dependencies left ∨
    left = [] ∧ (m'.store.record r).dependencies = dependencies.map Dependency.module ∧
      (m'.store.record r).dependencySetters = dependencies.map Dependency.setter
  listens : ∀ d x, ⟨d, some x⟩ ∈ now → x ∈ (m'.store.record d).importerSetters
  told : ∀ d x, ⟨d, some x⟩ ∈ now →
    ¬ (m.store.record d).IsVisible ∧ (m'.store.record d).hasExported = false ∨
      (x, d) ∈ m'.store.queue

/-- A setter has to do with a module: it listens to it, is to be told of it, or has been. -/
def Concerns (m : Machine C M) (x : SetterId) (d : RecordId) : Prop :=
  x ∈ (m.store.record d).importerSetters ∨ (x, d) ∈ m.store.queue ∨
    .called x d ∈ m.store.milestones

section Hands

variable {host : Host C M} {ρ ρ' : Roles} {m m' : Machine C M} {r d : RecordId} {x : SetterId}
  {dependencies before now left rest : List Dependency} {dependency : Dependency} {s : Store C}
  {st : List (Frame C)}

/-- The setters that are handed over come to listen to the dependencies. -/
private theorem HandsOver.listens (sequenced : m.Sequenced) (sound : m.Sound ρ)
    (way : HandsOver m.store m.stack m.control r dependencies (now ++ left) s st)
    (mem : ⟨d, some x⟩ ∈ now) : x ∈ ((now.foldl listen s).record d).importerSetters := by
  obtain ⟨_, _, _, known⟩ := way.awaits sound.control
  have suffix := sequenced.left r dependencies _ (way.carries sound)
  obtain ⟨_, instantiates⟩ := known _ (suffix.subset (List.mem_append_left _ mem))
  have lt := (sound.store.instantiation_eq instantiates).1
  rw [← way.still.size_records] at lt
  exact mem_importerSetters_listen.mpr (.inr ⟨lt, mem⟩)

theorem HandsOn.hands (h : HandsOn m m' r dependencies before dependency left)
    (sequenced : m.Sequenced) (sound : m.Sound ρ) :
    Hands m m' r dependencies (before ++ [dependency]) left := by
  obtain ⟨way, silent, listens, after⟩ := h
  rw [List.append_cons] at way
  refine ⟨way.carries sound, .inl (.handingOver (after.suffix.subset List.mem_cons_self)),
    fun d x mem => ?_, fun d x mem => ?_⟩
  · rw [after.still.record]
    exact way.listens sequenced sound mem
  · rcases List.mem_append.mp mem with mem | mem
    · refine .inl ⟨silent _ mem nofun, ?_⟩
      rw [after.still.record, record_listen_keeps Record.hasExported fun _ _ => rfl,
        way.still.record]
      exact Record.hasExported_of_not_isVisible (silent _ mem nofun)
    · obtain rfl := List.mem_singleton.mp mem
      obtain rfl := Option.some.inj listens
      rw [after.queue_eq]
      exact .inr (by simp)

/-- A module that has been linked has its dependencies, and their setters. -/
theorem Attaches.attached (h : Attaches m m' r dependencies rest) (sound : m.Sound ρ) :
    (m'.store.record r).dependencies = dependencies.map Dependency.module ∧
      (m'.store.record r).dependencySetters = dependencies.map Dependency.setter := by
  obtain @⟨s, way, _, store⟩ := h
  have lt : r < (rest.foldl listen s).records.size := by
    rw [(idle_foldl idle_listen _ _).size_records, way.still.size_records]
    exact sound.lt_of_carries (way.carries sound)
  have entered := Record.sameOutlet_enter (C := C)
  rw [store, record_attach_self lt]
  exact ⟨(entered _ _).dependencies, (entered _ _).dependencySetters⟩

theorem Attaches.hands (h : Attaches m m' r dependencies rest) (sequenced : m.Sequenced)
    (sound : m.Sound ρ) : Hands m m' r dependencies rest [] := by
  have attached := h.attached sound
  obtain @⟨s, way, silent, store⟩ := h
  rw [← List.append_nil rest] at way
  refine ⟨way.carries sound, .inr ⟨rfl, attached⟩, fun d x mem => ?_,
    fun d x mem => .inl ⟨silent _ mem nofun, ?_⟩⟩
  · rw [store, record_attach_keeps Record.importerSetters fun _ _ _ _ => rfl]
    exact way.listens sequenced sound mem
  · rw [store, record_attach_keeps Record.hasExported fun _ _ _ _ => rfl,
      record_listen_keeps Record.hasExported fun _ _ => rfl,
      way.still.record]
    exact Record.hasExported_of_not_isVisible (silent _ mem nofun)

/-- A setter that listens to a module did so before a step, or is handed over in it. -/
theorem SoundStep.listens (step : SoundStep host ρ ρ' m m') (sequenced : m.Sequenced)
    (h : x ∈ (m'.store.record d).importerSetters) : x ∈ (m.store.record d).importerSetters ∨
      ∃ r dependencies now left, Hands m m' r dependencies now left ∧ ⟨d, some x⟩ ∈ now := by
  cases step.rule.notice with
  | mute store _ => exact .inl ((store.record d).importerSetters ▸ h)
  | adopts _ _ store =>
    rw [store, record_adopt_keeps Record.importerSetters fun _ _ _ _ => rfl] at h
    exact .inl h
  | @publishes r entries _ _ after way =>
    rw [way.still.record, after, note_same.1,
      record_publish_keeps Record.importerSetters fun _ _ _ => rfl] at h
    exact .inl h
  | hands hands =>
    have hands' := hands.hands sequenced step.sound
    obtain ⟨way, _, _, after⟩ := hands
    rw [after.still.record] at h
    rcases mem_importerSetters_listen.mp h with h | ⟨_, mem⟩
    · rw [way.still.record] at h
      exact .inl h
    · exact .inr ⟨_, _, _, _, hands', mem⟩
  | attaches attaches =>
    have hands := attaches.hands sequenced step.sound
    obtain ⟨way, _, store⟩ := attaches
    rw [store, record_attach_keeps Record.importerSetters fun _ _ _ _ => rfl] at h
    rcases mem_importerSetters_listen.mp h with h | ⟨_, mem⟩
    · rw [way.still.record] at h
      exact .inl h
    · exact .inr ⟨_, _, _, _, hands, mem⟩
  | deletes store _ =>
    rw [store] at h
    exact .inl (mem_importerSetters_delete.1 h)
  | defines store _ =>
    rw [store] at h
    by_cases hd : d = m.store.records.size
    · subst hd
      obtain ⟨bindings, record⟩ := record_define_new
      rw [record] at h
      exact nomatch h
    · rw [record_define_of_ne hd] at h
      exact .inl (mem_importerSetters_delete.1 h)
  | calls _ _ _ _ _ store =>
    rw [store] at h
    exact .inl h
  | drops _ _ _ _ record _ _ =>
    rw [record] at h
    exact .inl h
  | settles _ store =>
    rw [store] at h
    exact .inl h
  | rests _ store _ =>
    rw [store] at h
    exact .inl h

/-- A setter that is to be told of a module was so before a step, or listens to it, or is handed
over. -/
theorem SoundStep.queued (step : SoundStep host ρ ρ' m m') (sequenced : m.Sequenced)
    (h : (x, d) ∈ m'.store.queue) :
    (x, d) ∈ m.store.queue ∨ x ∈ (m.store.record d).importerSetters ∨
      ∃ r dependencies now left, Hands m m' r dependencies now left ∧ ⟨d, some x⟩ ∈ now := by
  have listened := fun (xs : List Dependency) (s : Store C) => samePace_foldl samePace_listen xs s
  cases step.rule.notice with
  | mute store _ => exact .inl (store.queue ▸ h)
  | @adopts _ _ registration _ _ store =>
    have queue : m'.store.queue = m.store.queue := by
      rw [store]
      exact (addsSetters registration.setters m.store).queue
    exact .inl (queue ▸ h)
  | publishes _ after way =>
    rw [way.queue_eq, after] at h
    rcases List.mem_append.mp h with h | h
    · exact .inl h
    · obtain ⟨y, listens, same⟩ := List.mem_map.mp h
      cases same
      exact .inr (.inl listens)
  | hands hands =>
    have hands' := hands.hands sequenced step.sound
    obtain ⟨way, _, listens, after⟩ := hands
    rw [after.queue_eq, (listened _ _).queue, way.mute.1.queue] at h
    rcases List.mem_append.mp h with h | h
    · exact .inl h
    · obtain ⟨y, mem, same⟩ := List.mem_map.mp h
      cases same
      obtain rfl := List.mem_singleton.mp mem
      refine .inr (.inr ⟨_, _, _, _, hands', ?_⟩)
      rw [← listens]
      exact List.mem_append_right _ List.mem_cons_self
  | attaches attaches =>
    obtain ⟨way, _, store⟩ := attaches
    rw [store, (samePace_attach ..).queue, (listened _ _).queue, way.mute.1.queue] at h
    exact .inl h
  | deletes store _ =>
    rw [store, (samePace_delete ..).queue] at h
    exact .inl h
  | defines store _ =>
    rw [store, (samePace_define ..).queue] at h
    exact .inl h
  | calls queued _ _ _ _ store =>
    rw [store] at h
    exact .inl (queued ▸ List.mem_cons_of_mem _ h)
  | drops queued _ _ _ _ _ _ => exact .inl (queued ▸ List.mem_cons_of_mem _ h)
  | settles _ store =>
    rw [store] at h
    exact .inl h
  | rests _ store _ =>
    rw [store] at h
    exact nomatch h

/-- A setter that has to do with a module did so before a step, or is handed over in it. -/
theorem SoundStep.concerns (step : SoundStep host ρ ρ' m m') (sequenced : m.Sequenced)
    (h : m'.Concerns x d) : m.Concerns x d ∨
      ∃ r dependencies now left, Hands m m' r dependencies now left ∧ ⟨d, some x⟩ ∈ now := by
  rcases h with listens | queued | called
  · exact (step.listens sequenced listens).imp_left .inl
  · rcases step.queued sequenced queued with queued | listens | hands
    · exact .inl (.inr (.inl queued))
    · exact .inl (.inl listens)
    · exact .inr hands
  · rcases step.rule.happens_of_mem called trivial with called | happens
    · exact .inl (.inr (.inr called))
    · cases happens with
      | called queue _ =>
        refine .inl (.inr (.inl ?_))
        rw [queue]
        exact List.mem_cons_self

end Hands

end Machine

end ModuleSystem.Loader
