import ModuleSystem.Proofs.Loader.Handing
import ModuleSystem.Proofs.Loader.Sessions

/-!
# Setters are told of every change

A setter belongs to one place in the registration of one module (`Machine.Placed`). Once it has been
handed over to a dependency it listens to it, until its module is deleted: each change of the
dependency is either followed by a call of the setter, or a notification of it is queued. So when
nothing is being delivered, every setter has seen the latest exports.

## Main definitions

* `Machine.UpToDate` : a setter has been called since the bindings of a module changed for the last
  time.

## Main results

* `Machine.Run.upToDate` : when no exports are being published and no setters handed over, the setters
  of a linked module are up to date.
-/

namespace ModuleSystem.Loader

variable {C M : Type}

namespace Machine

open Store

/-! ### Places of setters -/

/-- A setter is the one for the dependency of some index of a module, and has not been handed over
yet. -/
inductive Waits (m : Machine C M) (x : SetterId) (r : RecordId) (i : Nat) : Prop
  | pending (setter : (m.store.record r).pendingSetters[i]? = some (some x))
  | carried {dependencies left d} (carries : m.Carries r dependencies left)
      (setter : dependencies[i]? = some ⟨d, some x⟩) (later : dependencies.length ≤ i + left.length)

/-- A setter is the one for the dependency of some index of a module, and has been handed over to
it. -/
inductive Posted (m : Machine C M) (x : SetterId) (r : RecordId) (i : Nat) (d : RecordId) : Prop
  | carried {dependencies left} (carries : m.Carries r dependencies left)
      (setter : dependencies[i]? = some ⟨d, some x⟩) (done : i + left.length < dependencies.length)
  | attached (dependency : (m.store.record r).dependencies[i]? = some d)
      (setter : (m.store.record r).dependencySetters[i]? = some (some x))

/-- A setter is the one for the dependency of some index of a module. -/
def Placed (m : Machine C M) (x : SetterId) (r : RecordId) (i : Nat) : Prop :=
  m.Waits x r i ∨ ∃ d, m.Posted x r i d

/-- The hook of a module registers a setter for its dependency of some index. -/
inductive Registers (m m' : Machine C M) (x : SetterId) (r : RecordId) (i : Nat) : Prop
  | intro {registration} (stack : m.stack = .hook r :: m'.stack)
      (store : m'.store = m.store.adopt r registration)
      (pending : (m'.store.record r).pendingSetters =
        (m.store.addSetters registration.setters).2)
      (setter : (m'.store.record r).pendingSetters[i]? = some (some x))

section Places

variable {host : Host C M} {ρ ρ' : Roles} {m m' : Machine C M} {x : SetterId} {r r' d d' : RecordId}
  {i i' : Nat} {dependencies now left : List Dependency}

/-- The elements of a list that are neither before a part of it nor after it are in the part. -/
private theorem mem_of_suffix {α : Type} {xs now left : List α} {a : α}
    (suffix : now ++ left <:+ xs) (at' : xs[i]? = some a)
    (later : xs.length ≤ i + (now ++ left).length) (done : i + left.length < xs.length) :
    a ∈ now := by
  obtain ⟨before, rfl⟩ := suffix
  simp only [List.length_append] at later done
  rw [List.getElem?_append_right (by omega), List.getElem?_append_left (by omega)] at at'
  exact List.mem_of_getElem? at'

private theorem exists_of_suffix {α : Type} {xs now left : List α} {a : α}
    (suffix : now ++ left <:+ xs) (mem : a ∈ now) :
    ∃ i, xs[i]? = some a ∧ xs.length ≤ i + (now ++ left).length ∧ i + left.length < xs.length := by
  obtain ⟨before, rfl⟩ := suffix
  obtain ⟨k, lt, at'⟩ := List.getElem_of_mem mem
  refine ⟨before.length + k, ?_, ?_, ?_⟩
  · rw [List.getElem?_append_right (by omega), Nat.add_sub_cancel_left,
      List.getElem?_append_left lt, List.getElem?_eq_getElem lt, at']
  · simp only [List.length_append]
    omega
  · simp only [List.length_append]
    omega

/-- A setter that has been handed over does not wait to be. -/
theorem Posted.not_waits (posted : m.Posted x r i d) (sound : m.Sound ρ) (staged : m.Staged ρ)
    (sequenced : m.Sequenced) : ¬ m.Waits x r i := by
  intro waits
  cases posted with
  | carried carries _ done =>
    cases waits with
    | pending setter =>
      rw [sequenced.carried r _ _ carries] at setter
      exact nomatch setter
    | carried carries' _ later =>
      obtain ⟨rfl, rfl⟩ := sound.carries_unique carries carries'
      exact Nat.not_lt_of_le later done
  | attached dependency _ =>
    have linked : (m.store.record r).dependencies ≠ [] := fun empty => by
      rw [empty] at dependency
      exact nomatch dependency
    cases waits with
    | pending setter =>
      rw [sequenced.linked r linked] at setter
      exact nomatch setter
    | carried carries _ _ => exact sound.not_linked_of_carries carries (staged.dependencies r linked)

/-- A setter is handed over to one dependency only. -/
theorem Posted.eq (posted : m.Posted x r i d) (posted' : m.Posted x r i d') (sound : m.Sound ρ)
    (staged : m.Staged ρ) : d = d' := by
  have exclusive : ∀ {dependencies left d}, m.Carries r dependencies left →
      (m.store.record r).dependencies[i]? = some d → False := by
    intro dependencies left d carries dependency
    refine sound.not_linked_of_carries carries (staged.dependencies r fun empty => ?_)
    rw [empty] at dependency
    exact nomatch dependency
  cases posted with
  | carried carries setter _ =>
    cases posted' with
    | carried carries' setter' _ =>
      obtain ⟨rfl, _⟩ := sound.carries_unique carries carries'
      cases setter.symm.trans setter'
      rfl
    | attached dependency _ => exact (exclusive carries dependency).elim
  | attached dependency _ =>
    cases posted' with
    | carried carries _ _ => exact (exclusive carries dependency).elim
    | attached dependency' _ => exact Option.some.inj (dependency.symm.trans dependency')

/-- A setter that is handed over in a step waits before it and does not after it. -/
theorem Hands.place (hands : Hands m m' r dependencies now left) (sequenced : m.Sequenced)
    (mem : ⟨d, some x⟩ ∈ now) : ∃ i, m.Waits x r i ∧ m'.Posted x r i d := by
  obtain ⟨i, setter, later, done⟩ :=
    exists_of_suffix (sequenced.left r _ _ hands.carries) mem
  refine ⟨i, .carried hands.carries setter later, ?_⟩
  rcases hands.goesOn with carries | ⟨_, dependency, setters⟩
  · exact .carried carries setter done
  · refine .attached ?_ ?_
    · rw [dependency, List.getElem?_map, setter]
      rfl
    · rw [setters, List.getElem?_map, setter]
      rfl

/-- A setter that waits did so before a step, or has just been registered. -/
theorem SoundStep.waits (step : SoundStep host ρ ρ' m m') (h : m'.Waits x r i) :
    m.Waits x r i ∨ Registers m m' x r i := by
  cases h with
  | pending setter =>
    rcases step.rule.pendingSetters r with same | none | ⟨_, registration, stack, _, store⟩
    · rw [same] at setter
      exact .inl (.pending setter)
    · rw [none] at setter
      cases setter
    · refine .inr (.intro stack store ?_ setter)
      rcases Nat.lt_or_ge r (m.store.addSetters registration.setters).1.records.size with lt | ge
      · rw [store, adopt, record_update_self lt]
      · rw [store, adopt, record_of_size_le (by simpa using ge)] at setter
        cases setter
  | @carried dependencies _ _ carries setter later =>
    refine .inl ?_
    cases step.carried carries with
    | same carries => exact .carried carries setter later
    | resolved _ _ _ setters _ =>
      obtain ⟨others, pending⟩ := setters
      have at' : (dependencies.map Dependency.setter)[i]? = some (some x) := by
        rw [List.getElem?_map, setter]
        rfl
      refine .pending ?_
      rw [← pending, List.getElem?_append_left (List.getElem?_eq_some_iff.mp at').1, at']
    | hands hands =>
      obtain ⟨way, _, _, _⟩ := hands
      refine .carried (way.carries step.sound) setter ?_
      simp only [List.length_append, List.length_cons]
      omega

/-- A setter that has been handed over had been before a step, or is so in it. -/
theorem SoundStep.posted (step : SoundStep host ρ ρ' m m') (sequenced : m.Sequenced)
    (h : m'.Posted x r i d) : m.Posted x r i d ∨ m.Waits x r i ∧
      ∃ dependencies now left, Hands m m' r dependencies now left ∧ ⟨d, some x⟩ ∈ now := by
  have handed : ∀ {dependencies now left}, Hands m m' r dependencies now left →
      dependencies[i]? = some ⟨d, some x⟩ → i + left.length < dependencies.length →
      m.Posted x r i d ∨ m.Waits x r i ∧
        ∃ dependencies now left, Hands m m' r dependencies now left ∧ ⟨d, some x⟩ ∈ now := by
    intro dependencies now left hands setter done
    rcases Nat.lt_or_ge (i + (now ++ left).length) dependencies.length with before | later
    · exact .inl (.carried hands.carries setter before)
    · have mem := mem_of_suffix (sequenced.left r _ _ hands.carries) setter later done
      exact .inr ⟨.carried hands.carries setter later, _, _, _, hands, mem⟩
  have attached : (m.store.record r).dependencies[i]? = some d →
      (m.store.record r).dependencySetters[i]? = some (some x) →
      m.Posted x r i d ∨ m.Waits x r i ∧
        ∃ dependencies now left, Hands m m' r dependencies now left ∧ ⟨d, some x⟩ ∈ now :=
    fun dependency setter => .inl (.attached dependency setter)
  cases h with
  | carried carries setter done =>
    cases step.carried carries with
    | same carries => exact .inl (.carried carries setter done)
    | resolved _ _ all _ _ =>
      rw [all] at done
      omega
    | hands hands => exact handed (hands.hands sequenced step.sound) setter done
  | attached dependency setter =>
    cases step.rule.outlet r with
    | same keeps =>
      rw [keeps.dependencies] at dependency
      rcases keeps.dependencySetters with same | none
      · rw [same] at setter
        exact attached dependency setter
      · rw [none] at setter
        exact nomatch setter
    | adopted _ _ store =>
      rw [store, record_adopt_keeps Record.dependencies fun _ _ _ _ => rfl] at dependency
      rw [store, record_adopt_keeps Record.dependencySetters fun _ _ _ _ => rfl] at setter
      exact attached dependency setter
    | published _ _ record =>
      rw [record] at dependency setter
      exact attached dependency setter
    | @attached dependencies rest x' attaches _ record =>
      rw [record.dependencies] at dependency
      rw [record.dependencySetters] at setter
      simp only [List.getElem?_map, Option.map_eq_some_iff] at dependency setter
      obtain ⟨⟨d, y⟩, at', rfl⟩ := dependency
      obtain ⟨_, at'', same⟩ := setter
      obtain rfl := Option.some.inj (at'.symm.trans at'')
      obtain rfl : y = some x := same
      exact handed (attaches.hands sequenced step.sound) at' (List.getElem?_eq_some_iff.mp at').1
    | defined _ record =>
      rw [record] at dependency
      exact nomatch dependency

end Places

/-! ### Setters are known where they are -/

/-- Every setter has one place, and has to do with no module but the dependency that it has been
handed over to. -/
structure Placement (m : Machine C M) : Prop where
  bounded : ∀ x r i, m.Placed x r i → x < m.store.setters.size
  unique : ∀ x r i r' i', m.Placed x r i → m.Placed x r' i' → r = r' ∧ i = i'
  known : ∀ x d, m.Concerns x d → x < m.store.setters.size
  waits : ∀ x r i d, m.Waits x r i → ¬ m.Concerns x d
  posted : ∀ x r i d d', m.Posted x r i d → m.Concerns x d' → d' = d

section Placement

variable {host : Host C M} {ρ ρ' : Roles} {m m' : Machine C M} {trace : List (Machine C M)}
  {x : SetterId} {r r' d d' : RecordId} {i i' : Nat}

theorem Rule.size_setters_le (h : Rule host m m') :
    m.store.setters.size ≤ m'.store.setters.size := by
  have listened := fun (xs : List Dependency) (s : Store C) => samePace_foldl samePace_listen xs s
  have same : m'.store.setters = m.store.setters →
      m.store.setters.size ≤ m'.store.setters.size := fun h => Nat.le_of_eq (by rw [h])
  cases h.notice with
  | mute store _ => exact same store.setters
  | @adopts _ _ registration _ _ store =>
    rw [store]
    exact (addsSetters registration.setters m.store).size
  | publishes _ after way => exact same (by rw [way.raises.setters, after]; rfl)
  | hands hands =>
    obtain ⟨way, _, _, after⟩ := hands
    exact same (by rw [after.raises.setters, (listened _ _).setters, way.mute.1.setters])
  | attaches attaches =>
    obtain ⟨way, _, store⟩ := attaches
    refine same ?_
    rw [store, (samePace_attach ..).setters, (listened _ _).setters, way.mute.1.setters]
  | deletes store _ => exact same (by rw [store, (samePace_delete ..).setters])
  | defines store _ => exact same (by rw [store, (samePace_define ..).setters])
  | calls _ _ _ _ _ store | settles _ store =>
    rw [store]
    exact Nat.le_of_eq (by simp [markSetter, note, setQueue])
  | drops _ _ _ _ _ _ setters => exact same setters
  | rests _ store _ => exact same (by rw [store]; rfl)

/-- A setter that is being registered is new. -/
theorem Registers.new (h : Registers m m' x r i) :
    m.store.setters.size ≤ x ∧ x < m'.store.setters.size := by
  obtain @⟨registration, _, store, pending, setter⟩ := h
  rw [pending] at setter
  rw [store]
  exact (addsSetters registration.setters m.store).new x (List.mem_of_getElem? setter)

/-- A setter is registered at one place. -/
theorem Registers.unique (h : Registers m m' x r i) (h' : Registers m m' x r' i') :
    r = r' ∧ i = i' := by
  obtain @⟨registration, stack, _, pending, setter⟩ := h
  obtain @⟨_, stack', _, _, setter'⟩ := h'
  cases stack.symm.trans stack'
  rw [pending] at setter setter'
  exact ⟨rfl, (addsSetters registration.setters m.store).once i i' x setter setter'⟩

/-- A setter with a place had it before a step, or has just been registered. -/
theorem SoundStep.placed (step : SoundStep host ρ ρ' m m') (sequenced : m.Sequenced)
    (h : m'.Placed x r i) : m.Placed x r i ∨ Registers m m' x r i := by
  rcases h with waits | ⟨d, posted⟩
  · exact (step.waits waits).imp_left .inl
  · rcases step.posted sequenced posted with posted | ⟨waits, _⟩
    · exact .inl (.inr ⟨d, posted⟩)
    · exact .inl (.inl waits)

theorem Placement.step (placement : m.Placement) (step : SoundStep host ρ ρ' m m')
    (sequenced : m.Sequenced) (sequenced' : m'.Sequenced) (staged' : m'.Staged ρ') :
    m'.Placement where
  bounded x r i h := by
    rcases step.placed sequenced h with placed | registers
    · exact Nat.lt_of_lt_of_le (placement.bounded x r i placed) step.rule.size_setters_le
    · exact registers.new.2
  unique x r i r' i' h h' := by
    rcases step.placed sequenced h with placed | registers
    · rcases step.placed sequenced h' with placed' | registers'
      · exact placement.unique x r i r' i' placed placed'
      · exact absurd (placement.bounded x r i placed) (Nat.not_lt_of_le registers'.new.1)
    · rcases step.placed sequenced h' with placed' | registers'
      · exact absurd (placement.bounded x r' i' placed') (Nat.not_lt_of_le registers.new.1)
      · exact registers.unique registers'
  known x d h := by
    rcases step.concerns sequenced h with concerns | ⟨_, _, _, _, hands, mem⟩
    · exact Nat.lt_of_lt_of_le (placement.known x d concerns) step.rule.size_setters_le
    · obtain ⟨i, waits, _⟩ := hands.place sequenced mem
      exact Nat.lt_of_lt_of_le (placement.bounded x _ i (.inl waits)) step.rule.size_setters_le
  waits x r i d h h' := by
    rcases step.concerns sequenced h' with concerns | ⟨_, _, _, _, hands, mem⟩
    · rcases step.waits h with waits | registers
      · exact placement.waits x r i d waits concerns
      · exact Nat.not_lt_of_le registers.new.1 (placement.known x d concerns)
    · obtain ⟨i', waits', posted'⟩ := hands.place sequenced mem
      rcases step.waits h with waits | registers
      · obtain ⟨rfl, rfl⟩ := placement.unique x _ _ _ _ (.inl waits) (.inl waits')
        exact posted'.not_waits step.sound' staged' sequenced' h
      · exact Nat.not_lt_of_le registers.new.1 (placement.bounded x _ i' (.inl waits'))
  posted x r i d d' h h' := by
    rcases step.concerns sequenced h' with concerns | ⟨_, _, _, _, hands, mem⟩
    · rcases step.posted sequenced h with posted | ⟨waits, _⟩
      · exact placement.posted x r i d d' posted concerns
      · exact absurd concerns (placement.waits x r i d' waits)
    · obtain ⟨i', waits', posted'⟩ := hands.place sequenced mem
      have placed : m.Placed x r i := by
        rcases step.posted sequenced h with posted | ⟨waits, _⟩
        · exact .inr ⟨d, posted⟩
        · exact .inl waits
      obtain ⟨rfl, rfl⟩ := placement.unique x _ _ _ _ placed (.inl waits')
      exact posted'.eq h step.sound' staged'

theorem Waits.of_pause (h : m'.Waits x r i) (pause : SoundPause ρ m m') : m.Waits x r i := by
  cases h with
  | pending setter => exact .pending (pause.change.kept.record ▸ setter)
  | carried carries setter later => exact .carried (carries.of_pause pause) setter later

theorem Posted.of_pause (h : m'.Posted x r i d) (pause : SoundPause ρ m m') :
    m.Posted x r i d := by
  cases h with
  | carried carries setter done => exact .carried (carries.of_pause pause) setter done
  | attached dependency setter =>
    rw [pause.change.kept.record] at dependency setter
    exact .attached dependency setter

theorem Concerns.of_pause (h : m'.Concerns x d) (pause : SoundPause ρ m m') : m.Concerns x d := by
  obtain ⟨_, _, queue⟩ := pause.change.pace
  rw [Concerns, pause.change.kept.record, pause.change.kept.milestones] at h
  rcases h with listens | queued | called
  · exact .inl listens
  · rcases queue with queue | queue
    · exact .inr (.inl (queue ▸ queued))
    · rw [queue] at queued
      exact nomatch queued
  · exact .inr (.inr called)

theorem Placement.pause (placement : m.Placement) (pause : SoundPause ρ m m') : m'.Placement := by
  obtain ⟨_, setters, _⟩ := pause.change.pace
  have placed : ∀ {x r i}, m'.Placed x r i → m.Placed x r i := fun h =>
    h.imp (fun h => h.of_pause pause) fun ⟨d, h⟩ => ⟨d, h.of_pause pause⟩
  refine ⟨fun x r i h => ?_, fun x r i r' i' h h' => ?_, fun x d h => ?_,
    fun x r i d h h' => ?_, fun x r i d d' h h' => ?_⟩
  · rw [setters]
    exact placement.bounded x r i (placed h)
  · exact placement.unique x r i r' i' (placed h) (placed h')
  · rw [setters]
    exact placement.known x d (h.of_pause pause)
  · exact placement.waits x r i d (h.of_pause pause) (h'.of_pause pause)
  · exact placement.posted x r i d d' (h.of_pause pause) (h'.of_pause pause)

/-- In every run, every setter has one place, and is known to the dependency that it has been handed
over to. -/
theorem Traced.placement (h : Traced host ρ (m :: trace)) : m.Placement := by
  refine h.invariant (P := fun _ m => m.Placement) (fun base resolver memory => ?_)
    (fun traced step placement => ?_) fun _ pause placement => placement.pause pause
  · have placed : ∀ {x r i}, ¬ Placed ({ store := { base, resolver }, memory } : Machine C M) x r i := by
      rintro x r i ((setter | ⟨h, _, _⟩) | ⟨d, ⟨h, _, _⟩ | ⟨dependency, _⟩⟩)
      · rw [record_start] at setter
        exact nomatch setter
      · exact not_carries_start h
      · exact not_carries_start h
      · rw [record_start] at dependency
        exact nomatch dependency
    have concerns : ∀ {x d}, ¬ Concerns ({ store := { base, resolver }, memory } : Machine C M) x d := by
      rintro x d (listens | queued | called)
      · rw [record_start] at listens
        exact nomatch listens
      · exact nomatch queued
      · exact nomatch called
    exact ⟨fun x r i h => absurd h placed, fun x r i _ _ h => absurd h placed,
      fun x d h => absurd h concerns, fun x r i d h => absurd (.inl h) placed,
      fun x r i d d' h => absurd (.inr ⟨d, h⟩) placed⟩
  · have traced' := Traced.step traced step
    exact placement.step step traced.sequenced traced'.sequenced traced'.staged

end Placement

/-! ### Updates -/

/-- A setter has been called for a module, and the bindings of the module have not changed since. -/
inductive UpToDate (x : SetterId) (d : RecordId) : List (Machine C M) → Prop
  | called {m m' trace} (call : m'.store.history = .called x d :: m.store.history) :
      UpToDate x d (m' :: m :: trace)
  | stays {m m' trace} (h : UpToDate x d (m :: trace))
      (bindings : m'.store.bindings d = m.store.bindings d)
      (changes : m'.store.history.count (.changed d) = m.store.history.count (.changed d)) :
      UpToDate x d (m' :: m :: trace)

/-- A setter that listens to a module is told of its exports: it is up to date, or is to be called, or
there has been nothing to tell. -/
inductive Told (x : SetterId) (d : RecordId) : List (Machine C M) → Prop
  | upToDate {trace} (h : UpToDate x d trace) : Told x d trace
  | queued {m trace} (h : (x, d) ∈ m.store.queue) : Told x d (m :: trace)
  | silent {m trace} (uncalled : ∀ d', .called x d' ∉ m.store.milestones)
      (empty : m.store.bindings d = []) : Told x d (m :: trace)

section Updates

variable {host : Host C M} {ρ ρ' : Roles} {m m' : Machine C M} {trace : List (Machine C M)}
  {x : SetterId} {r d : RecordId} {i : Nat}

/-- The exports of a module stay as they are, or the setters that listen to it are to be told. -/
theorem Rule.tells (h : Rule host m m') (known : d < m.store.records.size) :
    (m'.store.bindings d = m.store.bindings d ∧
      m'.store.milestones.count (.changed d) = m.store.milestones.count (.changed d)) ∨
      ∀ x ∈ (m.store.record d).importerSetters, (x, d) ∈ m'.store.queue := by
  rcases h.happens (e := .changed d) trivial with count | ⟨_, happens⟩
  · cases h.outlet d with
    | same keeps => exact .inl ⟨keeps.bindings, count⟩
    | adopted _ _ store =>
      refine .inl ⟨?_, count⟩
      rw [store]
      exact record_adopt_keeps Record.bindings fun _ _ _ _ => rfl
    | published _ told _ => exact .inr told
    | attached _ keeps record => exact .inl ⟨record.bindings.trans keeps.bindings, count⟩
    | defined new _ => exact absurd known (Nat.not_lt_of_le (Nat.le_of_eq new.symm))
  · cases happens with
    | changed _ told => exact .inr told

/-- A notification stays queued until its setter is called. -/
theorem SoundStep.stays_queued (step : SoundStep host ρ ρ' m m') (paced : m.Paced)
    (calm : m.control ≠ .unwind) (known : x < m.store.setters.size)
    (queued : (x, d) ∈ m.store.queue) :
    (x, d) ∈ m'.store.queue ∨ m'.store.history = .called x d :: m.store.history := by
  have listened := fun (xs : List Dependency) (s : Store C) => samePace_foldl samePace_listen xs s
  cases step.rule.notice with
  | mute store _ => exact .inl (store.queue ▸ queued)
  | @adopts _ _ registration _ _ store =>
    refine .inl ?_
    rw [store]
    exact (addsSetters registration.setters m.store).queue ▸ queued
  | publishes _ after way =>
    rw [way.queue_eq, after]
    exact .inl (List.mem_append_left _ queued)
  | hands hands =>
    obtain ⟨way, _, _, after⟩ := hands
    rw [after.queue_eq, (listened _ _).queue, way.mute.1.queue]
    exact .inl (List.mem_append_left _ queued)
  | attaches attaches =>
    obtain ⟨way, _, store⟩ := attaches
    rw [store, (samePace_attach ..).queue, (listened _ _).queue, way.mute.1.queue]
    exact .inl queued
  | deletes store _ =>
    rw [store, (samePace_delete ..).queue]
    exact .inl queued
  | defines store _ =>
    rw [store, (samePace_define ..).queue]
    exact .inl queued
  | calls first _ _ _ _ store =>
    rw [first] at queued
    rw [store]
    rcases List.mem_cons.mp queued with same | queued
    · cases same
      exact .inr rfl
    · exact .inl queued
  | drops first busy top _ _ _ _ =>
    rw [first] at queued
    rcases List.mem_cons.mp queued with same | queued
    · cases same
      have code := Array.getElem?_eq_getElem known
      exact nomatch (paced.not_running top code).symm.trans (busy _ code)
    · exact .inl queued
  | settles _ store =>
    rw [store]
    exact .inl queued
  | rests _ _ done =>
    rcases done with empty | unwinds
    · rw [empty] at queued
      exact nomatch queued
    · exact absurd unwinds calm

private theorem count_milestones {s : Store C} :
    s.milestones.count (.changed d) = s.history.count (.changed d) :=
  List.count_filter rfl

theorem Told.step (told : Told x d (m :: trace)) (step : SoundStep host ρ ρ' m m')
    (paced : m.Paced) (calm : m.control ≠ .unwind) (known : x < m.store.setters.size)
    (listens : x ∈ (m.store.record d).importerSetters)
    (only : ∀ d', m.Concerns x d' → d' = d) : Told x d (m' :: m :: trace) := by
  by_cases now : m'.store.history = .called x d :: m.store.history
  · exact .upToDate (.called now)
  · have there : d < m.store.records.size := Nat.lt_of_not_le fun ge => by
      rw [record_of_size_le ge] at listens
      exact nomatch listens
    rcases step.rule.tells there with ⟨bindings, changes⟩ | tells
    · cases told with
      | upToDate h =>
        rw [count_milestones, count_milestones] at changes
        exact .upToDate (.stays h bindings changes)
      | queued h => exact .queued ((step.stays_queued paced calm known h).resolve_right now)
      | silent uncalled empty =>
        refine .silent (fun d' called => ?_) (bindings.trans empty)
        rcases step.rule.happens_of_mem called trivial with called | happens
        · exact uncalled d' called
        · cases happens with
          | called queue history =>
            have queued : (x, d') ∈ m.store.queue := by
              rw [queue]
              exact List.mem_cons_self
            rw [only d' (.inr (.inl queued))] at history
            exact now history
    · exact .queued (tells x listens)

/-- A setter goes on listening until its module is deleted. -/
theorem SoundStep.stays_listening (step : SoundStep host ρ ρ' m m')
    (listens : x ∈ (m.store.record d).importerSetters) :
    x ∈ (m'.store.record d).importerSetters ∨
      ∃ r i, .deleted r ∈ m'.store.milestones ∧ m.Placed x r i := by
  have deletes : ∀ {url}, x ∈ ((m.store.delete url).1.record d).importerSetters ∨
      ∃ r i, .deleted r ∈ (m.store.delete url).1.milestones ∧ m.Placed x r i := fun {url} =>
    (mem_importerSetters_delete.2 listens).imp_right fun ⟨r, i, d', deleted, dependency, setter⟩ =>
      ⟨r, i, deleted, .inr ⟨d', .attached dependency setter⟩⟩
  cases step.rule.notice with
  | mute store _ => exact .inl ((store.record d).importerSetters ▸ listens)
  | adopts _ _ store =>
    rw [store, record_adopt_keeps Record.importerSetters fun _ _ _ _ => rfl]
    exact .inl listens
  | publishes _ after way =>
    rw [way.still.record, after, note_same.1,
      record_publish_keeps Record.importerSetters fun _ _ _ => rfl]
    exact .inl listens
  | hands hands =>
    obtain ⟨way, _, _, after⟩ := hands
    rw [after.still.record, mem_importerSetters_listen, way.still.record]
    exact .inl (.inl listens)
  | attaches attaches =>
    obtain ⟨way, _, store⟩ := attaches
    rw [store, record_attach_keeps Record.importerSetters fun _ _ _ _ => rfl,
      mem_importerSetters_listen, way.still.record]
    exact .inl (.inl listens)
  | deletes store _ =>
    rw [store]
    exact deletes
  | defines store _ =>
    have old : d ≠ m.store.records.size := by
      rintro rfl
      rw [record_of_size_le (Nat.le_refl _)] at listens
      exact nomatch listens
    rw [store, record_define_of_ne old, define_same.2.2.2.2.2.2]
    exact deletes.imp_right fun ⟨r, i, deleted, placed⟩ =>
      ⟨r, i, List.mem_cons_of_mem _ deleted, placed⟩
  | calls _ _ _ _ _ store | settles _ store | rests _ store _ =>
    rw [store]
    exact .inl listens
  | drops _ _ _ _ record _ _ =>
    rw [record]
    exact .inl listens

/-- What has exported nothing has no bindings, in every run. -/
theorem Traced.bindings_eq_nil (h : Traced host ρ (m :: trace))
    (fresh : (m.store.record r).hasExported = false) : m.store.bindings r = [] := by
  refine h.invariant (P := fun _ m => ∀ r, (m.store.record r).hasExported = false →
    m.store.bindings r = []) (fun base resolver memory r _ => ?_)
    (fun _ step empty r fresh => ?_) (fun _ pause empty r fresh => ?_) r fresh
  · rw [Store.bindings, record_start]
    rfl
  · cases step.rule.outlet r with
    | same keeps => exact keeps.bindings.trans (empty r (keeps.hasExported fresh))
    | adopted _ _ store =>
      rw [store, record_adopt_keeps Record.hasExported fun _ _ _ _ => rfl] at fresh
      rw [store, Store.bindings, record_adopt_keeps Record.bindings fun _ _ _ _ => rfl]
      exact empty r fresh
    | published _ _ record =>
      rw [record] at fresh
      exact nomatch fresh
    | attached _ keeps record =>
      exact (record.bindings.trans keeps.bindings).trans
        (empty r (keeps.hasExported (record.hasExported fresh)))
    | defined _ record =>
      rw [record] at fresh
      exact nomatch fresh
  · rw [pause.change.kept.record] at fresh
    rw [Store.bindings, pause.change.kept.record]
    exact empty r fresh

/-- In every run without host code that gives up, a setter that has been handed over listens to its
dependency and is told of its exports, unless its module has been deleted. -/
theorem Traced.told (h : Traced host ρ (m :: trace))
    (calm : ∀ m' ∈ m :: trace, m'.control ≠ .unwind) (posted : m.Posted x r i d)
    (kept : .deleted r ∉ m.store.milestones) :
    x ∈ (m.store.record d).importerSetters ∧ Told x d (m :: trace) := by
  generalize hl : m :: trace = states at h
  induction h generalizing m trace with
  | start base resolver memory =>
    cases hl
    rcases posted with ⟨carries, _, _⟩ | ⟨dependency, _⟩
    · exact absurd carries not_carries_start
    · rw [record_start] at dependency
      exact nomatch dependency
  | @step _ _ m₀ _ _ traced advance ih =>
    cases hl
    have placement := traced.placement
    rcases advance.posted traced.sequenced posted with posted | ⟨waits, _, _, _, hands, mem⟩
    · have placed : m₀.Placed x r i := .inr ⟨d, posted⟩
      obtain ⟨listens, told⟩ := ih (fun m' hm' => calm m' (List.mem_cons_of_mem _ hm')) posted
        (fun deleted => kept (advance.rule.mem_milestones deleted)) rfl
      refine ⟨?_, told.step advance traced.paced (calm m₀ (by simp)) (placement.bounded x r i placed)
        listens fun d' => placement.posted x r i d d' posted⟩
      rcases advance.stays_listening listens with listens | ⟨r', i', deleted, placed'⟩
      · exact listens
      · obtain ⟨rfl, _⟩ := placement.unique x r i r' i' placed placed'
        exact absurd deleted kept
    · refine ⟨hands.listens d x mem, ?_⟩
      rcases hands.told d x mem with ⟨_, fresh⟩ | queued
      · refine .silent (fun d' called => ?_) ((traced.step advance).bindings_eq_nil fresh)
        refine placement.waits x r i d' waits ?_
        rcases advance.rule.happens_of_mem called trivial with called | happens
        · exact .inr (.inr called)
        · cases happens with
          | called queue _ =>
            refine .inr (.inl ?_)
            rw [queue]
            exact List.mem_cons_self
      · exact .queued queued
  | @outside _ m₀ _ _ traced pause ih =>
    cases hl
    have outside := pause.change.kept
    rw [outside.milestones] at kept
    obtain ⟨listens, told⟩ := ih (fun m' hm' => calm m' (List.mem_cons_of_mem _ hm'))
      (posted.of_pause pause) kept rfl
    rw [outside.record]
    refine ⟨listens, ?_⟩
    cases told with
    | upToDate h =>
      refine .upToDate (.stays h ?_ ?_)
      · rw [Store.bindings, Store.bindings, outside.record]
      · rw [← count_milestones, ← count_milestones, outside.milestones]
    | queued h =>
      have empty := traced.paced.idle traced.sound fun frame mem => by
        rw [(reply?_isSome.mp pause.rests).1] at mem
        exact nomatch mem
      rw [empty] at h
      exact nomatch h
    | silent uncalled empty =>
      refine .silent (fun d' called => uncalled d' (outside.milestones ▸ called)) ?_
      rw [Store.bindings, outside.record]
      exact empty

/-- In every run without host code that gives up, when no exports are being published and no setters
handed over, each setter of a linked module that has not been deleted is up to date with its
dependency, or has never been called and its dependency has no bindings. -/
theorem Run.upToDate (h : Run host (m :: trace))
    (calm : ∀ m' ∈ m :: trace, m'.control ≠ .unwind)
    (rests : ∀ frame ∈ m.stack, ¬ MayDeliver frame) (kept : .deleted r ∉ m.store.history)
    (dependency : (m.store.record r).dependencies[i]? = some d)
    (setter : (m.store.record r).dependencySetters[i]? = some (some x)) :
    UpToDate x d (m :: trace) ∨
      (∀ d', .called x d' ∉ m.store.history) ∧ m.store.bindings d = [] := by
  obtain ⟨ρ, traced⟩ := h.exists_roles
  have kept : .deleted r ∉ m.store.milestones := fun deleted => kept (List.mem_filter.mp deleted).1
  obtain ⟨_, told⟩ := traced.told calm (.attached dependency setter) kept
  cases told with
  | upToDate h => exact .inl h
  | queued h =>
    rw [traced.paced.idle traced.sound rests] at h
    exact nomatch h
  | silent uncalled empty =>
    exact .inr ⟨fun d' called => uncalled d' (List.mem_filter.mpr ⟨called, rfl⟩), empty⟩

end Updates

instance (c : Control C) : Decidable (c = .unwind) :=
  match c with
  | .unwind => isTrue rfl
  | .host _ | .serve _ | .reply _ | .drain | .drained | .poll _ | .polled _ | .work _ | .paused _
  | .ended _ | .link .. | .linked .. | .visit .. | .visited .. => isFalse nofun

/-- A module that watches another one, whose body exports something. -/
def watchedModules : List (String × Script.Program) :=
  [("x:/a", { dependencies := [("x:/b", some [])] }),
   ("x:/b", { body := some (.steps [.publish [("n", .value .undefined)]]) })]

section Watched

/-- What the import comes to. -/
def watchedEnd : Machine Script.Code Script.Memory :=
  scriptedEnd watchedModules "x:/a" [.request (.poll (.waiting 0 2))] 58

/-- The states before. -/
def watchedTrace : List (Machine Script.Code Script.Memory) :=
  (scripted watchedModules "x:/a" [.request (.poll (.waiting 0 2))] 58).tail

theorem run_watched : Run Script.host (watchedEnd :: watchedTrace) :=
  .scripted watchedModules "x:/a" [.request (.poll (.waiting 0 2))] 58

theorem Run.upToDate_watched : .deleted 0 ∉ watchedEnd.store.history ∧
    (watchedEnd.store.record 0).dependencies[0]? = some 1 ∧
    (watchedEnd.store.record 0).dependencySetters[0]? = some (some 0) ∧
    UpToDate 0 1 (watchedEnd :: watchedTrace) := by
  have calm : ∀ x ∈ watchedEnd :: watchedTrace, x.control ≠ .unwind := by decide +kernel
  have stack : watchedEnd.stack = [] := List.isEmpty_iff.mp (by decide +kernel)
  have kept : .deleted 0 ∉ watchedEnd.store.history := by decide +kernel
  have dependency : (watchedEnd.store.record 0).dependencies[0]? = some 1 := by decide +kernel
  have setter : (watchedEnd.store.record 0).dependencySetters[0]? = some (some 0) := by
    decide +kernel
  have exports : watchedEnd.store.bindings 1 ≠ [] := by decide +kernel
  have rests : ∀ frame ∈ watchedEnd.stack, ¬ MayDeliver frame := by
    rw [stack]
    exact fun _ mem => absurd mem List.not_mem_nil
  exact ⟨kept, dependency, setter,
    (Run.upToDate run_watched calm rests kept dependency setter).resolve_right
      fun silent => exports silent.2⟩

end Watched

end Machine

end ModuleSystem.Loader
