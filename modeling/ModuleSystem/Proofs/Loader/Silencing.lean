import ModuleSystem.Proofs.Loader.Answers
import ModuleSystem.Proofs.Loader.Updates

/-!
# Setters that are taken back

When a module is deleted, its setters are taken back from the dependencies that they have been handed
over to. A setter that listens to a module has been handed over to it, so it is known where it is to
be taken back from, unless host code has given up while the setters of its module were handed over
(`Machine.Traced.listens`). From then on the setter is told of nothing, if its module had been linked
when it was deleted. If it had not, the setters are handed over later, as if nothing had happened.

## Main definitions

* `Machine.IsSetterOf` : a setter has been registered for a module.
* `Machine.notifications` : the modules of which a setter is to be told.

## Main results

* `Machine.Run.silenced` : once a linked module has been deleted, its setters listen to no module and
  are told of no change.
-/

namespace ModuleSystem.Loader

variable {C M : Type}

namespace Machine

open Store

/-! ### Jobs that are given up -/

/-- A job has been abandoned, or is about to be, as host code within it has given up. -/
def GivesUp (m : Machine C M) (j : JobId) : Prop :=
  (m.store.job j).state = .abandoned ∨ m.control = .unwind ∧ .advancing j ∈ m.stack

section GivesUp

variable {host : Host C M} {ρ ρ' : Roles} {m m' : Machine C M} {j : JobId} {outcome : Outcome}

theorem Sound.not_givesUp (sound : m.Sound ρ) (ended : (m.store.job j).state = .finished outcome) :
    ¬ m.GivesUp j := by
  rintro (abandoned | ⟨_, mem⟩)
  · exact nomatch ended.symm.trans abandoned
  · exact nomatch ended.symm.trans (sound.running_of_mem mem)

theorem SoundStep.givesUp (step : SoundStep host ρ ρ' m m') (h : m.GivesUp j) : m'.GivesUp j := by
  rcases h with abandoned | ⟨unwinds, mem⟩
  · refine .inl ?_
    have other : ∀ i, .advancing i ∈ m.stack → j ≠ i := by
      rintro i mem rfl
      exact nomatch abandoned.symm.trans (step.sound.running_of_mem mem)
    have lt : j < m.store.jobs.size := Nat.lt_of_not_le fun hle =>
      nomatch abandoned.symm.trans (state_job_of_size_le hle)
    cases step.rule.advance with
    | same _ state => rw [state j lt, abandoned]
    | takes waits _ _ _ state =>
      rw [state, if_neg, abandoned]
      rintro ⟨rfl, _⟩
      exact nomatch abandoned.symm.trans waits
    | putsAside _ _ stack state | ends _ _ stack state =>
      rw [state, if_neg, abandoned]
      exact fun h => other _ (by rw [stack]; exact List.mem_cons_self) h.1
    | abandons _ _ _ state =>
      rw [state]
      split_ifs
      · rfl
      · exact abandoned
  · have next := step.next
    obtain ⟨frame, st, stack⟩ := List.exists_cons_of_ne_nil (List.ne_nil_of_mem mem)
    by_cases top : frame = .advancing j
    · subst top
      refine .inl ?_
      have runs := step.sound.running_of_mem mem
      have lt : j < m.store.jobs.size := Nat.lt_of_not_le fun hle =>
        nomatch runs.symm.trans (state_job_of_size_le hle)
      rw [next]
      simp [Machine.step, unwinds, unwind, stack, pop, mapStore, state_job_setJob, lt]
    · refine .inr ⟨?_, step.rule.tail_suffix.subset ?_⟩
      · rw [next]
        cases frame <;> simp [Machine.step, unwinds, unwind, stack, pop, mapStore]
      · rw [stack] at mem ⊢
        exact (List.mem_cons.mp mem).resolve_left (Ne.symm top)

theorem SoundPause.givesUp (pause : SoundPause ρ m m') (h : m.GivesUp j) : m'.GivesUp j := by
  rcases h with abandoned | ⟨_, mem⟩
  · refine .inl ?_
    rw [pause.change.kept.state_job, abandoned]
  · rw [(reply?_isSome.mp pause.rests).1] at mem
    exact nomatch mem

end GivesUp

/-! ### Setters that listen -/

section Resuming

variable {ρ : Roles} {s : Store C} {c : Control C} {r : RecordId}
  {dependencies left : List Dependency} {st : List (Frame C)}

/-- An activity that hands over setters waits until notifications have been delivered. -/
theorem control_of_handingOver (h : c.Fits ρ s (.handingOver r dependencies left :: st)) :
    c = .drained ∨ c = .unwind := by
  rcases h.slot with unwinds | ⟨slot, awaits, _, drained⟩
  · exact .inr unwinds
  · rcases awaits with _ | ⟨fits, _⟩
    cases fits
    exact .inl (drained rfl)

end Resuming

section Listens

variable {host : Host C M} {ρ ρ' : Roles} {m m' : Machine C M} {x : SetterId} {r d : RecordId}
  {i : Nat} {dependencies left : List Dependency} {st : List (Frame C)}

/-- The setters that are left to be handed over are so when notifications have been delivered. -/
theorem Rule.resumes (h : Rule host m m') (sequenced : m.Sequenced) (sound : m.Sound ρ)
    (top : m.stack = .handingOver r dependencies left :: st) (control : m.control = .drained) :
    ∃ now left', left = now ++ left' ∧ Hands m m' r dependencies now left' := by
  obtain ⟨s, memory, stack, c⟩ := m
  subst top control
  cases h
  case move h =>
    cases h
    case turnVisits way => cases way
  case handsOver silent listens after way =>
    cases way with
    | resumes => exact ⟨_, _, List.append_cons _ _ _,
        HandsOn.hands (.intro .resumes silent listens after) sequenced sound⟩
    | starts way => cases way
  case handedOver silent way =>
    cases way with
    | resumes => exact ⟨_, _, (List.append_nil _).symm,
        Attaches.hands (.intro .resumes silent rfl) sequenced sound⟩
    | starts way => cases way
  case joins way | joinWaits way | joinOrphaned way | joinFails way => cases way
  case gathers way | gatherWaits way | gathered way | gatherOrphaned way | gatherFails way =>
    cases way
  case turnDeferred way | turnComes way => cases way
  case collects way | collectWaits way | collectOrphaned way | collectFails way
      | collectTooLate way | collected way => cases way

/-- The setters that are left to be handed over are so when notifications have been delivered, if
host code does not give up. -/
theorem SoundStep.resumes (step : SoundStep host ρ ρ' m m') (sequenced : m.Sequenced)
    (top : m.stack = .handingOver r dependencies left :: st) :
    (∃ now left', left = now ++ left' ∧ Hands m m' r dependencies now left') ∨
      m'.control = .unwind ∧ m'.stack = st := by
  have sound := step.sound
  have fits := sound.control
  rw [top] at fits
  rcases control_of_handingOver fits with control | control
  · refine .inl ?_
    exact step.rule.resumes sequenced sound top control
  · refine .inr ?_
    rw [step.next]
    simp [Machine.step, control, unwind, top, pop]

/-- A setter that a linked module has handed over stays so as long as it listens. -/
theorem SoundStep.stays_attached (step : SoundStep host ρ ρ' m m') (staged : m.Staged ρ)
    (dependency : (m.store.record r).dependencies[i]? = some d)
    (setter : (m.store.record r).dependencySetters[i]? = some (some x))
    (listens : x ∈ (m'.store.record d).importerSetters) :
    (m'.store.record r).dependencies[i]? = some d ∧
      (m'.store.record r).dependencySetters[i]? = some (some x) := by
  have linked := staged.dependencies r fun empty => by
    rw [empty] at dependency
    exact nomatch dependency
  have same : (m'.store.record r).dependencies = (m.store.record r).dependencies →
      (m'.store.record r).dependencySetters = (m.store.record r).dependencySetters →
      (m'.store.record r).dependencies[i]? = some d ∧
        (m'.store.record r).dependencySetters[i]? = some (some x) := fun h h' => by
    rw [h, h']
    exact ⟨dependency, setter⟩
  cases step.rule.notice with
  | mute store _ => exact same (store.record r).dependencies (store.record r).dependencySetters
  | adopts _ _ store =>
    rw [store] at same ⊢
    exact same (record_adopt_keeps Record.dependencies fun _ _ _ _ => rfl)
      (record_adopt_keeps Record.dependencySetters fun _ _ _ _ => rfl)
  | publishes _ after way =>
    rw [way.still.record, after, note_same.1] at same ⊢
    exact same (record_publish_keeps Record.dependencies fun _ _ _ => rfl)
      (record_publish_keeps Record.dependencySetters fun _ _ _ => rfl)
  | hands hands =>
    obtain ⟨way, _, _, after⟩ := hands
    rw [after.still.record, ← way.still.record] at same
    rw [after.still.record]
    exact same (record_listen_keeps Record.dependencies fun _ _ => rfl)
      (record_listen_keeps Record.dependencySetters fun _ _ => rfl)
  | @attaches r' _ _ attaches =>
    obtain ⟨way, _, store⟩ := attaches
    have other : r ≠ r' := by
      rintro rfl
      exact step.sound.not_linked_of_carries (way.carries step.sound) linked
    rw [store, record_attach_of_ne other, ← way.still.record] at same
    rw [store, record_attach_of_ne other]
    exact same (record_listen_keeps Record.dependencies fun _ _ => rfl)
      (record_listen_keeps Record.dependencySetters fun _ _ => rfl)
  | deletes store _ =>
    rw [store] at listens ⊢
    exact ⟨(record_delete_keeps Record.dependencies (fun _ _ => rfl) fun _ _ => rfl).symm ▸
      dependency, dependencySetters_delete_of_listens dependency setter listens⟩
  | @defines url _ store _ =>
    have listens : x ∈ ((m.store.delete url).1.record d).importerSetters := by
      rw [store] at listens
      by_cases new : d = m.store.records.size
      · subst new
        obtain ⟨_, record⟩ := record_define_new
        rw [record] at listens
        exact nomatch listens
      · rwa [record_define_of_ne new] at listens
    rw [store, record_define_of_ne (Nat.ne_of_lt linked.1)]
    exact ⟨(record_delete_keeps Record.dependencies (fun _ _ => rfl) fun _ _ => rfl).symm ▸
      dependency, dependencySetters_delete_of_listens dependency setter listens⟩
  | calls _ _ _ _ _ store | settles _ store | rests _ store _ =>
    rw [store] at same ⊢
    exact same rfl rfl
  | drops _ _ _ _ record _ _ =>
    rw [record] at same ⊢
    exact same rfl rfl

/-- Once setters of a module have been handed over, so are the others until the module is linked, if
host code does not give up. -/
theorem SoundStep.goesOn (step : SoundStep host ρ ρ' m m') (sequenced : m.Sequenced)
    (carries : m.Carries r dependencies left) (begun : left.length < dependencies.length) :
    (∃ now left', left = now ++ left' ∧ (m'.Carries r dependencies left' ∨
      left' = [] ∧ (m'.store.record r).dependencies = dependencies.map Dependency.module ∧
        (m'.store.record r).dependencySetters = dependencies.map Dependency.setter)) ∨
      ∃ j, ρ'.Is j (.link r) ∧ m'.GivesUp j := by
  obtain ⟨j, is, way⟩ := step.sound.of_carries carries
  -- before the first of them is called, no setter has been handed over
  obtain ⟨st, below⟩ : ∃ st,
      .handingOver r dependencies left :: .advancing j :: st <:+ m.stack := by
    rcases way with ⟨rfl, _⟩ | ⟨frame, st, below, ⟨rfl, _⟩ | rfl⟩
    · omega
    · omega
    · exact ⟨st, below⟩
  by_cases top : m.stack = .handingOver r dependencies left :: .advancing j :: st
  · rcases step.resumes sequenced top with ⟨now, left', split, hands⟩ | ⟨control, stack⟩
    · exact .inl ⟨now, left', split, hands.goesOn⟩
    · refine .inr ⟨j, is.mono step.follow.le, .inr ⟨control, ?_⟩⟩
      rw [stack]
      exact List.mem_cons_self
  · have mem := (step.rule.suffix below top).subset List.mem_cons_self
    exact .inl ⟨[], left, rfl, .inl (.handingOver mem)⟩

/-- A setter that has been handed over stays so, unless it listens no more or its module is not
linked as host code gives up. -/
theorem SoundStep.stays_posted (step : SoundStep host ρ ρ' m m') (sequenced : m.Sequenced)
    (staged : m.Staged ρ) (posted : m.Posted x r i d)
    (listens : x ∈ (m'.store.record d).importerSetters) :
    m'.Posted x r i d ∨ ∃ j, ρ'.Is j (.link r) ∧ m'.GivesUp j := by
  cases posted with
  | @carried dependencies left carries setter done =>
    rcases step.goesOn sequenced carries (by omega) with
      ⟨now, left, rfl, carries | ⟨_, dependencies, setters⟩⟩ | givesUp
    · refine .inl (.carried carries setter ?_)
      rw [List.length_append] at done
      omega
    · refine .inl (.attached ?_ ?_)
      · rw [dependencies, List.getElem?_map, setter]
        rfl
      · rw [setters, List.getElem?_map, setter]
        rfl
    · exact .inr givesUp
  | attached dependency setter =>
    obtain ⟨dependency, setter⟩ := step.stays_attached staged dependency setter listens
    exact .inl (.attached dependency setter)

theorem SoundPause.posted (pause : SoundPause ρ m m') (posted : m.Posted x r i d) :
    m'.Posted x r i d := by
  cases posted with
  | carried carries setter done =>
    obtain ⟨_, _, ⟨rfl, _⟩ | ⟨frame, st, below, _⟩⟩ := pause.sound.of_carries carries
    · omega
    · rw [(reply?_isSome.mp pause.rests).1] at below
      exact nomatch List.suffix_nil.mp below
  | attached dependency setter =>
    rw [← pause.change.kept.record] at dependency setter
    exact .attached dependency setter

variable {trace : List (Machine C M)}

/-- In every run, a setter that listens to a module has been handed over to it, unless host code has
given up while the setters were. -/
theorem Traced.listens (h : Traced host ρ (m :: trace))
    (listens : x ∈ (m.store.record d).importerSetters) :
    ∃ r i, (∃ m' ∈ m :: trace, m'.Placed x r i) ∧
      (m.Posted x r i d ∨ ∃ j, ρ.Is j (.link r) ∧ m.GivesUp j) := by
  generalize hl : m :: trace = states at h
  induction h generalizing m trace with
  | start base resolver memory =>
    cases hl
    rw [record_start] at listens
    exact nomatch listens
  | @step _ _ m₀ _ _ traced advance ih =>
    cases hl
    rcases advance.listens traced.sequenced listens with before | ⟨r, _, _, _, hands, mem⟩
    · obtain ⟨r, i, ⟨m₁, mem, placed⟩, posted⟩ := ih before rfl
      refine ⟨r, i, ⟨m₁, List.mem_cons_of_mem _ mem, placed⟩, ?_⟩
      rcases posted with posted | ⟨j, is, givesUp⟩
      · exact advance.stays_posted traced.sequenced traced.staged posted listens
      · exact .inr ⟨j, is.mono advance.follow.le, advance.givesUp givesUp⟩
    · obtain ⟨i, waits, posted⟩ := hands.place traced.sequenced mem
      exact ⟨r, i, ⟨m₀, by simp, .inl waits⟩, .inl posted⟩
  | outside traced pause ih =>
    cases hl
    rw [pause.change.kept.record] at listens
    obtain ⟨r, i, ⟨m₁, mem, placed⟩, posted⟩ := ih listens rfl
    exact ⟨r, i, ⟨m₁, List.mem_cons_of_mem _ mem, placed⟩,
      posted.imp pause.posted fun ⟨j, is, givesUp⟩ => ⟨j, is, pause.givesUp givesUp⟩⟩

end Listens

/-! ### Setters of one module -/

section Owner

variable {host : Host C M} {ρ : Roles} {m m' : Machine C M} {trace : List (Machine C M)}
  {x : SetterId} {r r' : RecordId} {i i' : Nat}

/-- A setter that is known is so from then on. -/
theorem Traced.lt_of_known (h : Traced host ρ (m :: trace)) (mem : m' ∈ m :: trace)
    (known : x < m'.store.setters.size) : x < m.store.setters.size :=
  h.persists_of_mem mem (P := fun m => x < m.store.setters.size)
    ⟨fun _ step lt => Nat.lt_of_lt_of_le lt step.rule.size_setters_le, fun _ pause lt => by
      obtain ⟨_, setters, _⟩ := pause.change.pace
      rwa [setters]⟩ known

/-- A setter that has been registered is known from then on. -/
theorem Traced.lt_of_placed (h : Traced host ρ (m :: trace)) (mem : m' ∈ m :: trace)
    (placed : m'.Placed x r i) : x < m.store.setters.size := by
  obtain ⟨later, earlier, states⟩ := List.append_of_mem mem
  obtain ⟨_, traced⟩ := h.suffix ⟨later, states.symm⟩ nofun
  exact h.lt_of_known mem (traced.placement.bounded x r i placed)

private theorem Traced.eq_of_placed_now (h : Traced host ρ (m :: trace)) (placed : m.Placed x r i)
    (mem : m' ∈ m :: trace) (placed' : m'.Placed x r' i') : r = r' := by
  generalize hl : m :: trace = states at h mem
  induction h generalizing m trace i with
  | start base resolver memory =>
    cases hl
    obtain rfl := List.mem_singleton.mp mem
    have traced : Traced host {} [_] := .start base resolver memory
    exact (traced.placement.unique x r i r' i' placed placed').1
  | step traced advance ih =>
    cases hl
    rcases List.mem_cons.mp mem with rfl | mem
    · exact ((traced.step advance).placement.unique x r i r' i' placed placed').1
    · rcases advance.placed traced.sequenced placed with placed | registers
      · exact ih placed rfl mem
      · exact absurd (traced.lt_of_placed mem placed') (Nat.not_lt_of_le registers.new.1)
  | outside traced pause ih =>
    cases hl
    have before : Placed _ x r i :=
      placed.imp (fun h => h.of_pause pause) fun ⟨d, h⟩ => ⟨d, h.of_pause pause⟩
    rcases List.mem_cons.mp mem with rfl | mem
    · exact ((traced.outside pause).placement.unique x r i r' i' placed placed').1
    · exact ih before rfl mem

/-- In every run, a setter belongs to the registration of one module. -/
theorem Traced.eq_of_placed (h : Traced host ρ trace) (mem : m ∈ trace) (placed : m.Placed x r i)
    (mem' : m' ∈ trace) (placed' : m'.Placed x r' i') : r = r' := by
  obtain ⟨later, earlier, rfl⟩ := List.append_of_mem mem
  rcases List.mem_append.mp mem' with before | after
  · obtain ⟨later, between, rfl⟩ := List.append_of_mem before
    rw [List.append_assoc, List.cons_append] at h
    obtain ⟨_, traced⟩ := h.suffix ⟨later, rfl⟩ nofun
    exact (traced.eq_of_placed_now placed' (by simp) placed).symm
  · obtain ⟨_, traced⟩ := h.suffix ⟨later, rfl⟩ nofun
    exact traced.eq_of_placed_now placed after placed'

end Owner

/-! ### Deleted modules -/

/-- A setter has been registered for a module, somewhere in a run. -/
def IsSetterOf (trace : List (Machine C M)) (x : SetterId) (r : RecordId) : Prop :=
  ∃ m ∈ trace, some x ∈ (m.store.record r).pendingSetters

/-- The modules of which a setter is to be told, in the order in which it is. -/
def notifications (m : Machine C M) (x : SetterId) : List RecordId :=
  (m.store.queue.filter fun notification => notification.1 = x).map Prod.snd

/-- The module that is deleted next. -/
def deleting? (m : Machine C M) : Option RecordId :=
  match m.control with
  | .serve (.delete url) => m.store.lookup url
  | _ => none

/-- How a module has been linked, if that is over. -/
def linking? (m : Machine C M) (r : RecordId) : Option Outcome :=
  match (m.store.job (m.store.record r).linking).state with
  | .finished outcome => some outcome
  | _ => none

/-- A setter of a module listens to nothing, and will not be handed over. -/
structure Silent (m : Machine C M) (x : SetterId) (r : RecordId) : Prop where
  listens : ∀ d, x ∉ (m.store.record d).importerSetters
  known : r < m.store.records.size
  ended : (m.linking? r).isSome

/-- From one state to a later one, nothing new is told to a setter: no notification of it is queued,
and it is called of those that had been. -/
structure Untold (x : SetterId) (m m' : Machine C M) : Prop where
  notifications : m'.notifications x <:+ m.notifications x
  called : ∀ d, m'.store.history.count (.called x d) + (m'.notifications x).count d ≤
    m.store.history.count (.called x d) + (m.notifications x).count d

section Silencing

variable {host : Host C M} {ρ ρ' : Roles} {m m' m₀ : Machine C M}
  {trace later earlier : List (Machine C M)} {x : SetterId} {r d : RecordId} {url : Url}

theorem Untold.trans {m₁ m₂ m₃ : Machine C M} (h : Untold x m₁ m₂) (h' : Untold x m₂ m₃) :
    Untold x m₁ m₃ :=
  ⟨h'.notifications.trans h.notifications, fun d => Nat.le_trans (h'.called d) (h.called d)⟩

private theorem count_called {s : Store C} :
    s.history.count (.called x d) = s.milestones.count (.called x d) :=
  (List.count_filter rfl).symm

theorem deleting?_eq_some : m.deleting? = some r ↔
    ∃ url, m.control = .serve (.delete url) ∧ m.store.lookup url = some r := by
  unfold deleting?
  split <;> simp_all

theorem linking?_eq_some {outcome : Outcome} : m.linking? r = some outcome ↔
    (m.store.job (m.store.record r).linking).state = .finished outcome := by
  unfold linking?
  split <;> simp_all

theorem linking?_isSome : (m.linking? r).isSome ↔
    ∃ outcome, (m.store.job (m.store.record r).linking).state = .finished outcome := by
  simp only [Option.isSome_iff_exists, linking?_eq_some]

/-- What is over stays so. -/
theorem SoundStep.ended (step : SoundStep host ρ ρ' m m') (known : r < m.store.records.size)
    (ended : (m.linking? r).isSome) : (m'.linking? r).isSome := by
  rw [linking?_isSome] at ended ⊢
  obtain ⟨outcome, ended⟩ := ended
  rw [(step.rule.recordChange known).linking_eq]
  exact ⟨outcome,
    step.ends (step.sound.lt_of_links (step.sound.store.linking r known)) (.inl ended)⟩

theorem Sound.not_ended_of_carries (sound : m.Sound ρ) {dependencies left : List Dependency}
    (carries : m.Carries r dependencies left) : ¬ (m.linking? r).isSome := by
  rw [linking?_isSome]
  exact fun ⟨_, ended⟩ => sound.not_finished_of_carries carries ended

theorem Silent.step (silent : m.Silent x r) (step : SoundStep host ρ ρ' m m')
    (sequenced : m.Sequenced) (only : ∀ r' i, m.Placed x r' i → r' = r) : m'.Silent x r := by
  obtain ⟨listens, known, ended⟩ := silent
  refine ⟨fun d now => ?_, Nat.lt_of_lt_of_le known step.rule.size_records_le,
    step.ended known ended⟩
  rcases step.listens sequenced now with before | ⟨r', _, _, _, hands, mem⟩
  · exact listens d before
  · obtain ⟨i, waits, _⟩ := hands.place sequenced mem
    obtain rfl := only r' i (.inl waits)
    exact step.sound.not_ended_of_carries hands.carries ended

theorem Silent.pause (silent : m.Silent x r) (pause : SoundPause ρ m m') : m'.Silent x r := by
  obtain ⟨listens, known, ended⟩ := silent
  have kept := pause.change.kept
  refine ⟨fun d => ?_, kept.size_records ▸ known, ?_⟩
  · rw [kept.record]
    exact listens d
  · rw [linking?_isSome] at ended ⊢
    rwa [kept.record, kept.state_job]

theorem SoundStep.store_of_delete (step : SoundStep host ρ ρ' m m')
    (control : m.control = .serve (.delete url)) : m'.store = (m.store.delete url).1 := by
  rw [step.next]
  simp [Machine.step, control, serve]

/-- A linked module that is deleted takes all its setters back. -/
theorem Traced.silent_of_delete (h : Traced host ρ (m :: trace)) (step : SoundStep host ρ ρ' m m')
    (deletes : m.deleting? = some r) (ended : (m.linking? r).isSome)
    (only : ∀ m₁ ∈ m' :: m :: trace, ∀ r' i, m₁.Placed x r' i → r' = r) : m'.Silent x r := by
  obtain ⟨url, control, found⟩ := deleting?_eq_some.mp deletes
  have known : r < m.store.records.size := h.sound.store.lt_of_lookup found
  have ended' := step.ended known ended
  have traced := h.step step
  refine ⟨fun d listens => ?_, Nat.lt_of_lt_of_le known step.rule.size_records_le, ended'⟩
  obtain ⟨r', i, ⟨m₁, mem, placed⟩, posted⟩ := traced.listens listens
  obtain rfl := only m₁ mem r' i placed
  rcases posted with (⟨carries, _, _⟩ | ⟨_, setter⟩) | ⟨j, is, givesUp⟩
  · exact traced.sound.not_ended_of_carries carries ended'
  · rw [step.store_of_delete control, dependencySetters_delete_self found] at setter
    exact nomatch setter
  · obtain ⟨outcome, ended'⟩ := linking?_isSome.mp ended'
    rw [(traced.sound.store.links j _ is).2] at ended'
    exact traced.sound.not_givesUp ended' givesUp

/-- Once a linked module has been deleted, its setters listen to no module. -/
theorem Traced.silent (h : Traced host ρ (m :: (later ++ m₀ :: earlier)))
    (deletes : m₀.deleting? = some r) (ended : (m₀.linking? r).isSome)
    (only : ∀ m₁ ∈ m :: (later ++ m₀ :: earlier), ∀ r' i, m₁.Placed x r' i → r' = r) :
    m.Silent x r := by
  induction later generalizing m ρ with
  | nil =>
    cases h with
    | step traced step => exact traced.silent_of_delete step deletes ended only
    | outside _ pause =>
      obtain ⟨_, control, _⟩ := deleting?_eq_some.mp deletes
      obtain ⟨_, _, replies⟩ := reply?_isSome.mp pause.rests
      exact nomatch control.symm.trans replies
  | cons m' later ih =>
    have only' := fun m₁ mem => only m₁ (List.mem_cons_of_mem _ mem)
    cases h with
    | step traced step =>
      exact (ih traced only').step step traced.sequenced (only' m' List.mem_cons_self)
    | outside traced pause => exact (ih traced only').pause pause

/-- No notification of a setter is queued in a step if it listens to nothing. -/
theorem SoundStep.notifications_suffix (step : SoundStep host ρ ρ' m m') (sequenced : m.Sequenced)
    (silent : ∀ d, x ∉ (m.store.record d).importerSetters)
    (silent' : ∀ d, x ∉ (m'.store.record d).importerSetters) :
    m'.notifications x <:+ m.notifications x := by
  have listened := fun (xs : List Dependency) (s : Store C) => samePace_foldl samePace_listen xs s
  have same : m'.store.queue = m.store.queue → m'.notifications x <:+ m.notifications x :=
    fun h => by
      rw [notifications, h]
      exact List.suffix_refl _
  have raises : ∀ {setters : List SetterId} {d : RecordId}, x ∉ setters →
      m'.store.queue = m.store.queue ++ setters.map (·, d) →
      m'.notifications x <:+ m.notifications x := by
    intro setters d other h
    have none : (setters.map (·, d)).filter (fun notification => notification.1 = x) = [] := by
      simp only [List.filter_eq_nil_iff, List.mem_map, decide_eq_true_eq]
      rintro _ ⟨y, mem, rfl⟩ rfl
      exact other mem
    rw [notifications, h, List.filter_append, none, List.append_nil]
    exact List.suffix_refl _
  have takes : ∀ {n}, m.store.queue = n :: m'.store.queue →
      m'.notifications x <:+ m.notifications x := by
    intro n h
    rw [notifications, notifications, h]
    exact ((List.suffix_cons _ _).filter _).map _
  cases step.rule.notice with
  | mute store _ => exact same store.queue
  | @adopts _ _ registration _ _ store =>
    refine same ?_
    rw [store]
    exact (addsSetters registration.setters m.store).queue
  | @publishes r _ _ _ after way => exact raises (silent r) (by rw [way.queue_eq, after]; rfl)
  | @hands _ _ _ dependency _ hands =>
    have told := (hands.hands sequenced step.sound).listens
    obtain ⟨way, _, listens, after⟩ := hands
    refine raises (fun mem => silent' dependency.module (told _ _ ?_))
      (by rw [after.queue_eq, (listened _ _).queue, way.mute.1.queue])
    rw [List.mem_singleton.mp mem, ← listens]
    exact List.mem_append_right _ List.mem_cons_self
  | attaches attaches =>
    obtain ⟨way, _, store⟩ := attaches
    exact same (by rw [store, (samePace_attach ..).queue, (listened _ _).queue, way.mute.1.queue])
  | deletes store _ => exact same (by rw [store, (samePace_delete ..).queue])
  | defines store _ => exact same (by rw [store, (samePace_define ..).queue])
  | calls queued _ _ _ _ store => exact takes (by rw [queued, store]; rfl)
  | drops queued _ _ _ _ _ _ => exact takes queued
  | settles _ store => exact same (by rw [store]; rfl)
  | rests _ store _ =>
    rw [notifications, store]
    exact List.nil_suffix

/-- What a setter is called of has been queued. -/
theorem Rule.untold (rule : Rule host m m') (suffix : m'.notifications x <:+ m.notifications x) :
    Untold x m m' := by
  refine ⟨suffix, fun d => ?_⟩
  rw [count_called, count_called]
  rcases rule.happens (e := .called x d) trivial with count | ⟨history, happens⟩
  · rw [count]
    exact Nat.add_le_add_left (suffix.sublist.count_le d) _
  · cases happens with
    | called queue _ =>
      have first : m.notifications x = d :: m'.notifications x := by simp [notifications, queue]
      rw [history, first, List.count_cons_self, List.count_cons_self]
      omega

theorem SoundPause.untold (pause : SoundPause ρ m m') : Untold x m m' := by
  obtain ⟨_, _, queue⟩ := pause.change.pace
  have suffix : m'.notifications x <:+ m.notifications x := by
    rcases queue with same | empty
    · rw [notifications, same]
      exact List.suffix_refl _
    · rw [notifications, empty]
      exact List.nil_suffix
  refine ⟨suffix, fun d => ?_⟩
  rw [count_called, count_called, pause.change.kept.milestones]
  exact Nat.add_le_add_left (suffix.sublist.count_le d) _

/-- From when a linked module is deleted, nothing new is told to its setters. -/
theorem Traced.untold (h : Traced host ρ (m :: (later ++ m₀ :: earlier)))
    (deletes : m₀.deleting? = some r) (ended : (m₀.linking? r).isSome)
    (only : ∀ m₁ ∈ m :: (later ++ m₀ :: earlier), ∀ r' i, m₁.Placed x r' i → r' = r) :
    (m :: (later ++ [m₀])).Pairwise fun m' m => Untold x m m' := by
  induction later generalizing m ρ with
  | nil =>
    refine List.pairwise_pair.mpr ?_
    cases h with
    | step _ step =>
      obtain ⟨_, control, _⟩ := deleting?_eq_some.mp deletes
      refine step.rule.untold ?_
      rw [notifications, step.store_of_delete control, (samePace_delete ..).queue]
      exact List.suffix_refl _
    | outside _ pause => exact pause.untold
  | cons m₁ later ih =>
    have only' := fun m₂ mem => only m₂ (List.mem_cons_of_mem _ mem)
    have silent := h.silent deletes ended only
    obtain ⟨now, before⟩ : Untold x m₁ m ∧
        (m₁ :: (later ++ [m₀])).Pairwise fun m' m => Untold x m m' := by
      cases h with
      | step traced step =>
        have silent₁ := traced.silent deletes ended only'
        exact ⟨step.rule.untold
          (step.notifications_suffix traced.sequenced silent₁.listens silent.listens),
          ih traced only'⟩
      | outside traced pause => exact ⟨pause.untold, ih traced only'⟩
    refine List.pairwise_cons.mpr ⟨fun m₂ mem => ?_, before⟩
    rcases List.mem_cons.mp mem with rfl | mem
    · exact now
    · exact ((List.pairwise_cons.mp before).1 m₂ mem).trans now

/-- In every run, once a module that has been linked is deleted, each of its setters listens to no
module, and is told of nothing but what had been queued before. -/
theorem Run.silenced (h : Run host (later ++ m₀ :: earlier))
    (deletes : m₀.deleting? = some r) (ended : (m₀.linking? r).isSome)
    (setter : IsSetterOf (later ++ m₀ :: earlier) x r) :
    (∀ m ∈ later, ∀ d, x ∉ (m.store.record d).importerSetters) ∧
      (later ++ [m₀]).Pairwise fun m' m => Untold x m m' := by
  obtain ⟨ρ, traced⟩ := h.exists_roles
  obtain ⟨m₁, mem₁, pending⟩ := setter
  obtain ⟨i, pending⟩ := List.mem_iff_getElem?.mp pending
  have only : ∀ m₂ ∈ later ++ m₀ :: earlier, ∀ r' i', m₂.Placed x r' i' → r' = r :=
    fun m₂ mem₂ r' i' placed => traced.eq_of_placed mem₂ placed mem₁ (.inl (.pending pending))
  refine ⟨fun m mem => ?_, ?_⟩
  · obtain ⟨above, between, rfl⟩ := List.append_of_mem mem
    rw [List.append_assoc, List.cons_append] at traced only
    obtain ⟨_, traced⟩ := traced.suffix ⟨above, rfl⟩ nofun
    exact (traced.silent deletes ended fun m₂ mem₂ =>
      only m₂ (List.mem_append_right _ mem₂)).listens
  · cases later with
    | nil => exact List.pairwise_singleton _ _
    | cons m later => exact traced.untold deletes ended only

end Silencing

/-- A module that watches another one, whose body exports something before it waits for a gate and
something else after that. -/
def retractedModules : List (String × Script.Program) :=
  [("x:/a", { dependencies := [("x:/b", some [])] }),
   ("x:/b", { body := some (.steps [.publish [("n", .value .undefined)], .wait "g",
      .publish [("n", .value .null)]]) })]

/-- The import of the first module is polled, the module is deleted, the gate is opened, and then
the poll is repeated. -/
def retractedStimuli : List (Stimulus Script.Memory) :=
  [.request (.poll (.waiting 0 2)), .request (.delete { scheme := "x", path := "/a" }),
   .remember fun memory => memory.settleGate "g" (.ok ()), .signal "g",
   .request (.poll (.waiting 0 2))]

section Retracted

/-- The states that this leads to, the latest first. -/
def retractedTrace : List (Machine Script.Code Script.Memory) :=
  scripted retractedModules "x:/a" retractedStimuli 89

/-- What is left of a list is its first element and what is left after that. -/
theorem headD_cons_drop {α : Type} {xs : List α} {n : Nat} {a : α} (lt : n < xs.length) :
    (xs.drop n).headD a :: xs.drop (n + 1) = xs.drop n := by
  rw [List.drop_eq_getElem_cons lt, List.headD_cons, List.getElem_cons_drop,
    List.drop_eq_getElem_cons lt]

/-- A list is what comes before one of its elements, the element and what comes after it. -/
private theorem take_append_headD_drop {α : Type} {xs : List α} {n : Nat} {a : α}
    (lt : n < xs.length) : xs.take n ++ (xs.drop n).headD a :: xs.drop (n + 1) = xs := by
  rw [headD_cons_drop lt, List.take_append_drop]

/-- The state in which the module is deleted. -/
def retractedNow : Machine Script.Code Script.Memory :=
  (retractedTrace.drop 24).headD (scriptedLoader retractedModules)

theorem Run.silenced_retracted :
    Run Script.host (retractedTrace.take 24 ++ retractedNow :: retractedTrace.drop 25) ∧
      retractedNow.deleting? = some 0 ∧ (retractedNow.linking? 0).isSome ∧
      IsSetterOf (retractedTrace.take 24 ++ retractedNow :: retractedTrace.drop 25) 0 0 ∧
      0 ∈ (retractedNow.store.record 1).importerSetters ∧
      (∃ m ∈ retractedTrace.take 24, retractedNow.store.history.count (.changed 1) <
        m.store.history.count (.changed 1)) ∧
      (∀ m ∈ retractedTrace.take 24, ∀ d, 0 ∉ (m.store.record d).importerSetters) ∧
      (retractedTrace.take 24 ++ [retractedNow]).Pairwise fun m' m => Untold 0 m m' := by
  have states : retractedTrace.take 24 ++ retractedNow :: retractedTrace.drop 25 =
      retractedTrace :=
    take_append_headD_drop (by decide +kernel)
  have run :
      Run Script.host (retractedTrace.take 24 ++ retractedNow :: retractedTrace.drop 25) := by
    rw [states, retractedTrace, Machine.scripted]
    exact .session (.outside (.start _ _ _) rfl (.requests _)) ..
  have deletes : retractedNow.deleting? = some 0 := by decide +kernel
  have ended : (retractedNow.linking? 0).isSome := by decide +kernel
  have setter :
      IsSetterOf (retractedTrace.take 24 ++ retractedNow :: retractedTrace.drop 25) 0 0 := by
    rw [states]
    show ∃ m ∈ retractedTrace, some 0 ∈ (m.store.record 0).pendingSetters
    decide +kernel
  exact ⟨run, deletes, ended, setter, by decide +kernel, by decide +kernel,
    run.silenced deletes ended setter⟩

end Retracted

end Machine

end ModuleSystem.Loader
