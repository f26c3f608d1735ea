import ModuleSystem.Proofs.Loader.Attempts
import ModuleSystem.Proofs.Loader.Ranks

/-!
# Vigilance

Nobody waits for something without being told when it can go on, or having been told already
(`Machine.Vigilant`): this holds of jobs that have been put aside, of jobs that are being advanced,
of the members of groups, and of whatever has just had to wait. It holds in every run in which host
code does not poll imports, since then nobody comes to a job that is being advanced already.

## Main definitions

* `Machine.Vigilant` : whoever waits is alert.

## Main results

* `Machine.Traced.vigilant` : so it is in every run in which host code does not poll imports.
-/

namespace ModuleSystem.Loader

variable {C M : Type}

namespace Machine

open Store

/-- Whoever waits is alert: what has just had to wait, jobs that have been put aside, jobs that are
being advanced, and the members of groups. Nobody waits for a job that has ended. -/
structure Vigilant (m : Machine C M) : Prop where
  stuck : ∀ w, m.control.stuck? m.stack = some w → w.Alert m.store (ear m.store m.stack)
  left : m.control.left.Watched m.store
  waiting : ∀ j work, (m.store.job j).state = .waiting work →
    work.wait.Alert m.store (.job j) ∧ work.wait.Watched m.store
  advancing : ∀ j st, .advancing j :: st <:+ m.stack → (Wait.job j).Alert m.store (ear m.store st)
  attempts : ∀ frame st members g k, frame :: st <:+ m.stack →
    frame.attempt? = some (members, g, k) → Attempt m.store st members g (· = k)
  finished : ∀ j outcome, (m.store.job j).state = .finished outcome → (m.store.job j).active = []

/-! ### What a step leaves alone -/

/-- A step leaves the activities in `base` alone, and all that wait but for those that are not
calm. -/
structure Leaves (ρ : Roles) (m m' : Machine C M) (calm : Listener → Prop)
    (base : List (Frame C)) : Prop where
  passes : Passes calm m.store m'.store
  suffix : base <:+ m.stack
  nobody : calm .nobody
  job : ∀ j, (m'.store.job j).state ≠ .running ∨ j ∈ advanced base → calm (.job j)
  groups : ∀ j path g, ρ.Owns j path g → j ∉ advanced m.stack → ∀ i, calm (.member g i)
  attempts : ∀ frame below members g k, frame :: below <:+ base →
    frame.attempt? = some (members, g, k) →
    (g < m.store.groups.size ∧ ∀ i, calm (.member g i)) ∧
    ∀ (i : Nat) w, members[i]? = some w → i ≠ k →
      w.Over (fun g => g < m.store.groups.size ∧ ∀ i, calm (.member g i)) fun r =>
        r < m.store.records.size

section Leaves

variable {ρ ρ' : Roles} {m m' : Machine C M} {calm : Listener → Prop} {base st : List (Frame C)}
  {j : JobId} {work : Work C} {w : Wait} {frame : Frame C} {members : List Wait} {g : GroupId}
  {k : Nat}

/-- Who is told on behalf of the activities that are left alone is calm, and stays the same. -/
theorem Leaves.ear (h : Leaves ρ m m' calm base) (below : st <:+ base) :
    calm (ear m.store st) ∧ Machine.ear m'.store st = Machine.ear m.store st := by
  constructor
  · rcases ear_cases m.store st with eq | ⟨j, st', suffix, eq⟩ |
      ⟨frame, st', members, g, k, suffix, attempt, eq⟩
    · rw [eq]
      exact h.nobody
    · rw [eq]
      exact h.job j (.inr (mem_advanced.mpr ((suffix.trans below).subset List.mem_cons_self)))
    · rw [eq]
      exact (h.attempts _ _ _ _ _ (suffix.trans below) attempt).1.2 k
  · refine ear_eq fun frame st' members g k suffix attempt => ?_
    obtain ⟨s₁, told, rest, size, _⟩ := h.passes.told
    have known := (h.attempts _ _ _ _ _ (suffix.trans below) attempt).1.1
    exact (rest.size g (Nat.lt_of_lt_of_le known size)).trans (told.size g known)

/-- What a job waits for that has been put aside is known, and calm. -/
theorem Leaves.over (h : Leaves ρ m m' calm base) (sound : m.Sound ρ)
    (waits : (m.store.job j).state = .waiting work) :
    work.wait.Over (fun g => g < m.store.groups.size ∧ ∀ i, calm (.member g i))
      fun r => r < m.store.records.size := by
  have idle : j ∉ advanced m.stack := fun mem =>
    nomatch waits.symm.trans ((sound.running j).mpr mem)
  exact (Work.Fits.over sound.store (sound.store.work j work waits)).mono fun g ⟨path, owns⟩ =>
    ⟨sound.store.lt_of_owns owns, h.groups j path g owns idle⟩

theorem Leaves.waiting (h : Leaves ρ m m' calm base) (sound : m.Sound ρ)
    (vigilant : m.Vigilant) (before : (m.store.job j).state = .waiting work)
    (after : (m'.store.job j).state ≠ .running) :
    work.wait.Alert m'.store (.job j) ∧ work.wait.Watched m'.store := by
  have scope := h.over sound before
  obtain ⟨alert, watched⟩ := vigilant.waiting j work before
  exact ⟨alert.pass (h.job j (.inl after)) h.passes scope, watched.pass h.passes scope⟩

theorem Leaves.advancing (h : Leaves ρ m m' calm base) (vigilant : m.Vigilant)
    (below : .advancing j :: st <:+ base) :
    (Wait.job j).Alert m'.store (Machine.ear m'.store st) := by
  obtain ⟨quiet, same⟩ := h.ear ((List.suffix_cons _ _).trans below)
  rw [same]
  exact (vigilant.advancing j st (below.trans h.suffix)).pass quiet h.passes .job

theorem Leaves.attempt (h : Leaves ρ m m' calm base) (vigilant : m.Vigilant)
    (below : frame :: st <:+ base) (attempt : frame.attempt? = some (members, g, k)) :
    Attempt m'.store st members g (· = k) := by
  obtain ⟨quiet, same⟩ := h.ear ((List.suffix_cons _ _).trans below)
  obtain ⟨own, scope⟩ := h.attempts frame st members g k below attempt
  exact (vigilant.attempts frame st members g k (below.trans h.suffix) attempt).pass h.passes own
    quiet same scope

end Leaves

/-! ### Steps -/

theorem Attends.sizes {s s₁ : Store C} {st st' : List (Frame C)} {c : Control C}
    {members : List Wait} {g : GroupId} (way : Attends s st c members g s₁ st') :
    s₁.groups.size = s.groups.size ∧ s₁.records.size = s.records.size ∧
      ∀ g', (s₁.group g').size = (s.group g').size := by
  cases way with
  | starts _ _ =>
    exact ⟨size_groups_setGroup, rfl, fun g' =>
      (sameMembers_setGroup (sameMembers_start _ _) g').size⟩
  | waits _ _ _ =>
    exact ⟨settle_same.2.2.2.1, settle_same.2.1, fun g' => (sameMembers_settle_none ..).size⟩
  | ends _ =>
    refine ⟨settle_same.2.2.2.1, settle_same.2.1, fun g' => ?_⟩
    rw [settle_some, group_setGroup]
    split_ifs with h
    · rw [h.1]
      rfl
    · rfl

theorem Attends.suffix {s s₁ : Store C} {st st' : List (Frame C)} {c : Control C}
    {members : List Wait} {g : GroupId} (way : Attends s st c members g s₁ st') : st' <:+ st := by
  cases way with
  | starts _ _ => exact List.suffix_refl _
  | waits _ _ _ | ends _ => exact List.suffix_cons _ _

private theorem setGroup_setGroup (s : Store C) (g : GroupId) (x y : Group) :
    (s.setGroup g x).setGroup g y = s.setGroup g y := by
  unfold setGroup
  congr 1
  refine Array.ext (by simp) fun i _ _ => ?_
  simp only [Array.getElem_modify]
  split_ifs <;> rfl

/-- In an attempt, listeners are told at most, but for the members of the group. -/
theorem Attends.told {s s₁ s' : Store C} {st st₁ st' : List (Frame C)} {c c' : Control C}
    {members : List Wait} {g : GroupId} (way : Attends s st c members g s₁ st₁)
    (after : After s₁ st₁ members g s' st' c') (known : g < s.groups.size) :
    ∃ s₀, Rouses Everyone s s₀ ∧ Rouses (Beside g) s₀ s' ∧ s.groups.size ≤ s₀.groups.size ∧
      s₀.record = s.record := by
  have calm : ∀ l, Beside g l → Everyone l := fun _ _ => trivial
  -- The group has been changed by hand, so that a further change of it is the only one.
  have changed : ∀ x : Group, x.size = (s.group g).size → s₁ = s.setGroup g x →
      Rouses (Beside g) s s' := by
    rintro x size rfl
    have first := rouses_setGroup (s := s) size
    cases after with
    | next next _ _ _ =>
      rw [setGroup_setGroup]
      refine rouses_setGroup ?_
      rw [(sameMembers_next? next).size, group_setGroup, if_pos ⟨rfl, known⟩, size]
    | rests _ _ _ _ => exact first
    | settles rouses _ _ _ _ => exact first.trans rouses (by simp)
  cases way with
  | starts _ _ =>
    refine ⟨s, rouses_refl s, changed _ ?_ rfl, Nat.le_refl _, rfl⟩
    unfold Group.start
    dsimp only
    split_ifs <;> rfl
  | @ends _ _ _ _ _ k outcome _ =>
    exact ⟨s, rouses_refl s, changed ((s.group g).memberEnded k (error? outcome) (ear s st₁)) rfl
      (settle_some ..), Nat.le_refl _, rfl⟩
  | @waits _ _ _ _ _ k _ _ _ _ =>
    refine ⟨_, rouses_settle_none s g k (ear s st₁), ?_, by simp, settle_same.1⟩
    cases after with
    | next next _ _ _ => exact rouses_setGroup (sameMembers_next? next).size
    | rests _ _ _ _ => exact (rouses_refl _).mono calm
    | settles rouses _ _ _ _ => exact rouses.mono calm

section Steps

variable {host : Host C M} {ρ ρ' : Roles} {m m' : Machine C M} {s : Store C} {st : List (Frame C)}
  {members : List Wait} {g : GroupId} {j : JobId} {work : Work C}

private theorem Rule.keepsJobs (rule : Rule host m m') :
    KeepsJobs (fun r => r < m.store.records.size) m.store m'.store := fun _ hr =>
  ⟨(rule.recordChange hr).instantiation_eq, (rule.recordChange hr).linking_eq⟩

/-- Attempts are at groups that are known, and so are those that the members wait for. -/
theorem Sound.attempts (sound : m.Sound ρ) {frame : Frame C} {k : Nat}
    (below : frame :: st <:+ m.stack) (attempt : frame.attempt? = some (members, g, k)) :
    g < m.store.groups.size ∧ ∀ (i : Nat) w, members[i]? = some w →
      w.Over (fun g => g < m.store.groups.size) fun r => r < m.store.records.size := by
  obtain ⟨_, awaits⟩ := sound.control.awaits
  obtain ⟨_, _, fits, _⟩ := awaits.of_suffix below
  obtain ⟨_, _, places, _⟩ := fits.places sound.store attempt
  exact ⟨sound.store.lt_of_owns places.owner, fun i w member =>
    (places.below i w member).mono fun _ ⟨_, _, owns⟩ => sound.store.lt_of_owns owns⟩

/-- A step in which listeners are told at most. -/
theorem SoundStep.leaves (step : SoundStep host ρ ρ' m m')
    (rouses : Rouses Everyone m.store m'.store) : Leaves ρ m m' Everyone m.stack where
  passes := ⟨⟨m.store, rouses_refl _, rouses, Nat.le_refl _, rfl⟩, step.rule.keepsJobs⟩
  suffix := List.suffix_refl _
  nobody := trivial
  job _ _ := trivial
  groups _ _ _ _ _ _ := trivial
  attempts _ _ _ _ _ below attempt := by
    obtain ⟨known, scope⟩ := step.sound.attempts below attempt
    exact ⟨⟨known, fun _ => trivial⟩, fun i w member _ =>
      (scope i w member).mono fun _ known => ⟨known, fun _ => trivial⟩⟩

/-- A step in which a job is taken up. -/
theorem SoundStep.leaves_of_takes (step : SoundStep host ρ ρ' m m')
    (waits : (m.store.job j).state = .waiting work)
    (store : m'.store = (m.store.subscribe j (ear m.store m.stack)).setJob j .running) :
    Leaves ρ m m' (· ≠ .job j) m.stack where
  passes := by
    refine ⟨⟨m.store, rouses_refl _, ?_, Nat.le_refl _, rfl⟩, step.rule.keepsJobs⟩
    rw [store]
    exact (rouses_subscribe ..).trans (rouses_setJob ..) (by simp)
  suffix := List.suffix_refl _
  nobody := nofun
  job j' h := by
    intro same
    cases same
    rcases h with idle | mem
    · refine idle ?_
      have known : j < m.store.jobs.size := lt_of_waiting waits
      rw [store, state_job_setJob, if_pos ⟨rfl, by simpa using known⟩]
    · exact nomatch waits.symm.trans ((step.sound.running j).mpr mem)
  groups _ _ _ _ _ _ := nofun
  attempts _ _ _ _ _ below attempt := by
    obtain ⟨known, scope⟩ := step.sound.attempts below attempt
    exact ⟨⟨known, nofun⟩, fun i w member _ =>
      (scope i w member).mono fun _ known => ⟨known, nofun⟩⟩

/-- An attempt that is being made is apart from those of the activities below. -/
private theorem Sound.apart (sound : m.Sound ρ)
    (way : Attends m.store m.stack m.control members g s st) {frame : Frame C}
    {below : List (Frame C)} {members' : List Wait} {g' : GroupId} {k : Nat}
    (suffix : frame :: below <:+ st) (attempt : frame.attempt? = some (members', g', k)) :
    g' ≠ g ∧ ∀ (i : Nat) w, members'[i]? = some w → i ≠ k →
      w.Over (fun g' => g' < m.store.groups.size ∧ g' ≠ g) fun r => r < m.store.records.size := by
  obtain ⟨slot, j, path, awaits, places, place⟩ := way.places sound.store sound.control
  exact awaits.apart sound.store (sound.nodup.sublist (advanced_suffix way.suffix).sublist)
    (.inl (place.within places.owner)) suffix attempt

/-- The group of an attempt is known, and no concern of the activities below, nor of what its
members wait for. -/
theorem Sound.of_attends (sound : m.Sound ρ)
    (way : Attends m.store m.stack m.control members g s st) :
    g < m.store.groups.size ∧ Beside g (ear m.store st) ∧
      ∀ (i : Nat) w, members[i]? = some w →
        w.Over (fun g' => g' < m.store.groups.size ∧ g' ≠ g) fun r => r < m.store.records.size := by
  obtain ⟨slot, j, path, awaits, places, place⟩ := way.places sound.store sound.control
  refine ⟨sound.store.lt_of_owns places.owner, ?_, fun i w member =>
    (places.below i w member).mono fun g' ⟨p, pre, owns⟩ => ⟨sound.store.lt_of_owns owns, ?_⟩⟩
  · rcases ear_cases m.store st with eq | ⟨_, _, _, eq⟩ |
      ⟨frame, _, _, _, _, suffix, attempt, eq⟩
    · rw [eq]
      exact nofun
    · rw [eq]
      exact nofun
    · rw [eq]
      exact fun i same => (sound.apart way suffix attempt).1 (Listener.member.inj same).1
  · rintro rfl
    cases Option.some.inj (owns.symm.trans places.owner)
    exact not_prefix_self pre

/-- A step in which an attempt at a group goes on. -/
theorem SoundStep.leaves_of_attends (step : SoundStep host ρ ρ' m m')
    (way : Attends m.store m.stack m.control members g s st)
    (after : After s st members g m'.store m'.stack m'.control) :
    Leaves ρ m m' (Beside g) st := by
  obtain ⟨slot, j, path, awaits, places, place⟩ := way.places step.sound.store step.sound.control
  have known := step.sound.store.lt_of_owns places.owner
  have inner := advanced_suffix way.suffix
  refine ⟨⟨way.told after known, step.rule.keepsJobs⟩, way.suffix, nofun, fun _ _ => nofun,
    fun j' path' g' owns idle i k same => ?_, fun frame below members' g' k suffix attempt => ?_⟩
  · cases same
    cases Option.some.inj (owns.symm.trans places.owner)
    exact idle (inner.subset (place.mem_advanced awaits))
  · obtain ⟨ne, scope⟩ := step.sound.apart way suffix attempt
    have other : ∀ {g'}, g' ≠ g → ∀ i, Beside g (.member g' i) := fun ne i k same =>
      ne (Listener.member.inj same).1
    have known' := (step.sound.attempts (suffix.trans way.suffix) attempt).1
    exact ⟨⟨known', other ne⟩, fun i w member off =>
      (scope i w member off).mono fun _ h => ⟨h.1, other h.2⟩⟩

/-- The members of a group are in order in an attempt too. -/
theorem Attends.orderly {s s₁ : Store C} {st st' : List (Frame C)} {c : Control C}
    (way : Attends s st c members g s₁ st') (known : g < s.groups.size)
    (orderly : IsOrderly (s.group g)) : IsOrderly (s₁.group g) := by
  cases way with
  | starts _ _ => exact (sameMembers_setGroup (sameMembers_start _ _) g).orderly orderly
  | waits _ _ _ => exact (sameMembers_settle_none ..).orderly orderly
  | ends _ =>
    rw [settle_some, group_setGroup, if_pos ⟨rfl, known⟩]
    exact isOrderly_memberEnded orderly ..

/-- What is left of an attempt that is being made: whoever waits within it is alert, and so is the
caller if the attempt is broken off. -/
theorem Vigilant.of_attends (vigilant : m.Vigilant) (sound : m.Sound ρ)
    (orderly : IsOrderly (m.store.group g))
    (way : Attends m.store m.stack m.control members g s st) :
    Attempt s st members g (fun _ => False) ∧
      ((s.group g).isResting = true → s.Heard (ear s st)) := by
  obtain ⟨known, quiet, scope⟩ := sound.of_attends way
  have left := vigilant.left
  have stuck := vigilant.stuck
  have attempts := vigilant.attempts
  generalize hst : m.stack = stack at way stuck attempts
  generalize hc : m.control = c at way stuck left
  cases way with
  | starts _ same =>
    rw [same] at left
    refine ⟨.start left known quiet scope, fun rests => ?_⟩
    rw [group_setGroup, if_pos ⟨rfl, known⟩] at rests
    unfold Group.start at rests
    dsimp only at rests
    split_ifs at rests <;> exact nomatch rests
  | @ends frame _ _ _ _ k outcome attempt =>
    have before := attempts _ _ _ _ _ (List.suffix_refl _) attempt
    refine ⟨before.ends known orderly quiet fun i w member _ => scope i w member, fun rests => ?_⟩
    rw [settle_some, group_setGroup, if_pos ⟨rfl, known⟩] at rests
    exact nomatch rests
  | @waits frame _ _ members _ k w attempt stuck' left' =>
    have before := attempts _ _ _ _ _ (List.suffix_refl _) attempt
    have alert := stuck w stuck'
    rw [ear_cons (Frame.listener?_of_attempt? attempt m.store)] at alert
    have watched : w.Watched m.store := by
      rcases left' with same | simple
      · rwa [same] at left
      · exact .simple simple
    refine ⟨before.waits known alert watched fun i w' member =>
      (scope i w' member).mono fun _ => And.left, fun rests => ?_⟩
    have same : ear (m.store.settle g k none (ear m.store st)) st = ear m.store st :=
      ear_congr fun g' => by
        rw [Group.isMany, Group.isMany, (sameMembers_settle_none m.store g k _ g').size]
    rw [same]
    exact heard_settle_none rests known

/-! ### Vigilance is kept -/

/-- What an activity waits for that has a job advanced is that job. -/
theorem Sound.job?_of_advancing (sound : m.Sound ρ) {w : Wait}
    (stack : m.stack = .advancing j :: st) (waits : st.head?.bind Frame.wait? = some w) :
    w.job? m.store = some j := by
  obtain ⟨_, awaits⟩ := sound.control.awaits
  rw [stack] at awaits
  obtain ⟨_, _, fits, below⟩ := awaits.of_suffix (List.suffix_refl _)
  cases fits
  rcases below with _ | ⟨fits, _⟩
  obtain ⟨⟨_, same, found⟩, _⟩ := fits.wait sound.store waits
  cases same
  exact found

/-- What a group waits for that has just been made is watched: all its members are due. -/
private theorem watched_ofSize {s : Store C} (group : s.group g = .ofSize members.length)
    (simple : ∀ w ∈ members, w.isGroup = false) : (Wait.group g members).Watched s := by
  refine .group (by rw [group]; rfl) (fun _ k w _ left => .inl fun _ => ?_)
    fun k w member _ => .simple (simple w (List.mem_of_getElem? member))
  rw [group] at left ⊢
  exact left

/-- Where the activities come from when an attempt goes on. -/
theorem After.stack {s s' : Store C} {st st' below : List (Frame C)} {c' : Control C}
    {frame : Frame C} (after : After s st members g s' st' c') (suffix : frame :: below <:+ st') :
    frame :: below <:+ st ∨ (frame.attempt? = none ∧ advanced [frame] = []) ∨
      ∃ w k group, frame.attempt? = some (members, g, k) ∧ below = st ∧
        (s.group g).next? members = some (w, k, group) ∧ s' = s.setGroup g group := by
  cases after with
  | next next attempt _ _ =>
    rcases List.suffix_cons_iff.mp suffix with same | inner
    · cases same
      exact .inr (.inr ⟨_, _, _, attempt, rfl, next, rfl⟩)
    · exact .inl inner
  | rests _ _ _ _ => exact .inl suffix
  | settles _ _ stack _ _ => exact (stack _ _ suffix).imp_right .inl

private theorem SoundStep.store_of_ended (step : SoundStep host ρ ρ' m m') {outcome : Outcome}
    (control : m.control = .ended outcome) (stack : m.stack = .advancing j :: st) :
    m'.store = m.store.finish j outcome := by
  rw [step.next, Machine.step, control]
  simp only [endJob, stack, pop, mapStore]

theorem SoundStep.store_of_paused (step : SoundStep host ρ ρ' m m')
    (control : m.control = .paused work) (stack : m.stack = .advancing j :: st) :
    m'.store = m.store.setJob j (.waiting work) := by
  rw [step.next, Machine.step, control]
  simp only [putAside, stack, pop, mapStore]

theorem Shift.leaves (shift : Shift m m') (step : SoundStep host ρ ρ' m m') :
    ∃ calm base, Leaves ρ m m' calm base := by
  cases shift with
  | goes rouses _ _ _ => exact ⟨_, _, step.leaves rouses⟩
  | takes _ waits store _ _ => exact ⟨_, _, step.leaves_of_takes waits store⟩
  | putsAside _ _ _ store => exact ⟨_, _, step.leaves (store ▸ rouses_setJob ..)⟩
  | ends _ _ _ store => exact ⟨_, _, step.leaves (store ▸ rouses_finish ..)⟩
  | attends way after => exact ⟨_, _, step.leaves_of_attends way after⟩

/-- Nobody comes to wait for a job that is not being advanced. -/
theorem Shift.active_eq_nil (shift : Shift m m') (step : SoundStep host ρ ρ' m m')
    (idle : (m'.store.job j).state ≠ .running) (before : (m.store.job j).active = []) :
    (m'.store.job j).active = [] := by
  obtain ⟨calm, base, leaves⟩ := shift.leaves step
  exact leaves.passes.heard (l := .job j) (leaves.job j (.inl idle)) before

private theorem active_of_size_le (h : m.store.jobs.size ≤ j) : (m.store.job j).active = [] := by
  rw [Store.job, Array.getElem?_eq_none h]
  rfl

private theorem Vigilant.stuck_step (vigilant : m.Vigilant) (step : SoundStep host ρ ρ' m m')
    (orderly : ∀ g, IsOrderly (m.store.group g)) (shift : Shift m m') {w : Wait}
    (stuck : m'.control.stuck? m'.stack = some w) : w.Alert m'.store (ear m'.store m'.stack) := by
  cases shift with
  | goes rouses stack same _ =>
    rcases same w stuck with rfl | ⟨before, own⟩
    · exact .inr .host
    · have ears : ear m'.store m'.stack = ear m.store m'.stack := by
        refine ear_eq fun frame below members g k suffix attempt => ?_
        rcases stack frame below suffix with old | ⟨plain, _⟩
        · exact rouses.size g (step.sound.attempts old attempt).1
        · exact nomatch plain.symm.trans attempt
      rw [ears, own]
      refine (vigilant.stuck w before).pass trivial (step.leaves rouses).passes ?_
      exact ((step.sound.control.over step.sound.store).1 w before).mono fun _ known =>
        ⟨known, fun _ => trivial⟩
  | takes _ _ _ _ next =>
    rw [next] at stuck
    exact nomatch stuck
  | @putsAside j work stack control next store =>
    have leaves := step.leaves (store ▸ rouses_setJob ..)
    have top : .advancing j :: m'.stack <:+ m.stack := by simp only [stack, List.suffix_refl]
    have alert := leaves.advancing vigilant top
    rw [next] at stuck
    refine alert.of_job? ?_
    rw [store]
    exact step.sound.job?_of_advancing stack stuck
  | ends _ _ next _ =>
    rw [next] at stuck
    exact nomatch stuck
  | attends way after =>
    obtain ⟨attempt, rests⟩ := vigilant.of_attends step.sound (orderly _) way
    have inOrder := way.orderly (step.sound.of_attends way).1 (orderly _)
    generalize m'.store = s', m'.stack = st', m'.control = c' at after stuck ⊢
    cases after with
    | next _ _ none _ | settles _ _ _ none _ => exact nomatch none.symm.trans stuck
    | rests next scope same _ =>
      cases same.symm.trans stuck
      exact attempt.alert rests inOrder next scope

private theorem Vigilant.left_step (vigilant : m.Vigilant) (step : SoundStep host ρ ρ' m m')
    (orderly : ∀ g, IsOrderly (m.store.group g)) (shift : Shift m m') :
    m'.control.left.Watched m'.store := by
  cases shift with
  | goes rouses _ _ left =>
    rcases left with same | simple | ⟨g, members, new, group, simple⟩
    · rw [same]
      refine vigilant.left.pass (step.leaves rouses).passes ?_
      exact (step.sound.control.over step.sound.store).2.mono fun _ known =>
        ⟨known, fun _ => trivial⟩
    · exact .simple simple
    · rw [new]
      exact watched_ofSize group simple
  | @takes j work _ waits store _ next =>
    have scope := Work.Fits.over step.sound.store (step.sound.store.work j work waits)
    rw [next]
    refine (vigilant.waiting j work waits).2.pass (step.leaves_of_takes waits store).passes ?_
    exact scope.mono fun g ⟨_, owns⟩ => ⟨step.sound.store.lt_of_owns owns, nofun⟩
  | putsAside _ _ next _ | ends _ _ next _ =>
    rw [next]
    exact .simple rfl
  | attends way after =>
    obtain ⟨attempt, _⟩ := vigilant.of_attends step.sound (orderly _) way
    obtain ⟨known, _, scope⟩ := step.sound.of_attends way
    have inOrder := way.orderly known (orderly _)
    obtain ⟨sizes, records, _⟩ := way.sizes
    generalize m'.store = s', m'.stack = st', m'.control = c' at after ⊢
    cases after with
    | @next w k group frame c next _ _ left =>
      rcases left with nothing | same
      · rw [nothing]
        exact .simple rfl
      · rw [same]
        have member := getElem?_of_next? next
        refine (attempt.inner k w member (mem_left_of_next? inOrder next) id).rouses
          (rouses_setGroup (sameMembers_next? next).size)
          ((scope k w member).mono fun g' ⟨lt, ne⟩ => ⟨by rwa [sizes], fun i k same => ?_⟩)
          fun r _ => ⟨rfl, rfl⟩
        exact ne (Listener.member.inj same).1
    | rests _ _ _ left =>
      rw [left]
      exact attempt.watched
    | settles _ _ _ _ left =>
      rw [left]
      exact .simple rfl

/-- What the work of a new job waits for has not been begun. -/
private theorem SoundStep.watched_of_new (step : SoundStep host ρ ρ' m m')
    (new : m.store.jobs.size ≤ j) (waits : (m'.store.job j).state = .waiting work) :
    work.wait.Watched m'.store := by
  have made := step.newJob new waits
  cases id made with
  | instantiate _ _ _ state | turn _ _ _ _ state _ =>
    cases state.symm.trans waits
    exact .simple rfl
  | link _ _ _ state =>
    cases state.symm.trans waits
    exact .simple rfl
  | graph _ _ _ state =>
    cases state.symm.trans waits
    exact .simple (by rw [Work.wait, LinkNode.wait]; rfl)
  | deferred _ _ _ state _ _ =>
    cases state.symm.trans waits
    refine watched_ofSize ((step.group_eq made waits).trans (by rw [List.length_map]))
      fun w mem => ?_
    obtain ⟨_, _, rfl⟩ := List.mem_map.mp mem
    rfl
  | ready _ _ _ _ state => cases state.symm.trans waits

/-- A job that is put aside is alert to what it waits for. -/
private theorem Vigilant.putsAside (vigilant : m.Vigilant) (step : SoundStep host ρ ρ' m m')
    (control : m.control = .paused work) (stack : m.stack = .advancing j :: m'.stack) :
    work.wait.Alert m'.store (.job j) ∧ work.wait.Watched m'.store := by
  have store := step.store_of_paused control stack
  have passes := (step.leaves (store ▸ rouses_setJob ..)).passes
  have alert := vigilant.stuck work.wait (by rw [control]; rfl)
  have watched := vigilant.left
  have scope := ((step.sound.control.over step.sound.store).1 work.wait (by rw [control]; rfl)).mono
    (Q := fun g => g < m.store.groups.size ∧ ∀ i, Everyone (.member g i))
    fun _ known => ⟨known, fun _ => trivial⟩
  rw [stack] at alert
  rw [control] at watched
  exact ⟨alert.pass trivial passes scope, watched.pass passes scope⟩

private theorem Vigilant.waiting_step (vigilant : m.Vigilant) (step : SoundStep host ρ ρ' m m')
    (shift : Shift m m') (waits : (m'.store.job j).state = .waiting work) :
    work.wait.Alert m'.store (.job j) ∧ work.wait.Watched m'.store := by
  have idle : (m'.store.job j).state ≠ .running := fun running => nomatch waits.symm.trans running
  rcases Nat.lt_or_ge j m.store.jobs.size with known | new
  · have old : (m'.store.job j).state = (m.store.job j).state →
        work.wait.Alert m'.store (.job j) ∧ work.wait.Watched m'.store := fun same => by
      obtain ⟨calm, base, leaves⟩ := shift.leaves step
      exact leaves.waiting step.sound vigilant (same.symm.trans waits) idle
    cases step.rule.advance with
    | same _ state => exact old (state j known)
    | takes _ _ _ _ state | ends _ _ _ state | abandons _ _ _ state =>
      have state := state j
      split_ifs at state
      · exact nomatch state.symm.trans waits
      · exact old state
    | @putsAside j' work' control _ stack state =>
      have after := state j
      split_ifs at after with same
      · obtain ⟨rfl, _⟩ := same
        cases after.symm.trans waits
        exact vigilant.putsAside step control stack
      · exact old after
  · exact ⟨.inl (shift.active_eq_nil step idle (active_of_size_le new)),
      step.watched_of_new new waits⟩

private theorem Vigilant.advancing_step (vigilant : m.Vigilant) (step : SoundStep host ρ ρ' m m')
    (shift : Shift m m') (below : .advancing j :: st <:+ m'.stack) :
    (Wait.job j).Alert m'.store (ear m'.store st) := by
  cases shift with
  | goes rouses stack _ _ =>
    rcases stack _ _ below with old | ⟨_, plain⟩
    · exact (step.leaves rouses).advancing vigilant old
    · exact nomatch plain
  | @takes j' work _ waits store stack _ =>
    have leaves := step.leaves_of_takes waits store
    rw [stack] at below
    rcases List.suffix_cons_iff.mp below with same | inner
    · cases same
      have known : j < m.store.jobs.size := lt_of_waiting waits
      rw [(leaves.ear (List.suffix_refl _)).2]
      by_cases nobody : ear m.store m.stack = .nobody
      · rw [nobody]
        exact .inl trivial
      · refine .inr (.job rfl ?_)
        rw [store, active_setJob]
        exact mem_active_subscribe known nobody
    · exact leaves.advancing vigilant inner
  | putsAside stack _ _ store =>
    refine (step.leaves (store ▸ rouses_setJob ..)).advancing vigilant (below.trans ?_)
    rw [stack]
    exact List.suffix_cons _ _
  | ends stack _ _ store =>
    refine (step.leaves (store ▸ rouses_finish ..)).advancing vigilant (below.trans ?_)
    rw [stack]
    exact List.suffix_cons _ _
  | attends way after =>
    have leaves := step.leaves_of_attends way after
    rcases after.stack below with old | ⟨_, plain⟩ | ⟨_, _, attempt, _⟩
    · exact leaves.advancing vigilant old
    · exact nomatch plain
    · exact nomatch attempt

private theorem Vigilant.attempts_step (vigilant : m.Vigilant) (step : SoundStep host ρ ρ' m m')
    (orderly : ∀ g, IsOrderly (m.store.group g)) (shift : Shift m m') {frame : Frame C} {k : Nat}
    (below : frame :: st <:+ m'.stack) (attempt : frame.attempt? = some (members, g, k)) :
    Attempt m'.store st members g (· = k) := by
  cases shift with
  | goes rouses stack _ _ =>
    rcases stack _ _ below with old | ⟨plain, _⟩
    · exact (step.leaves rouses).attempt vigilant old attempt
    · exact nomatch plain.symm.trans attempt
  | takes _ waits store stack _ =>
    rw [stack] at below
    rcases List.suffix_cons_iff.mp below with same | inner
    · cases same
      exact nomatch attempt
    · exact (step.leaves_of_takes waits store).attempt vigilant inner attempt
  | putsAside stack _ _ store =>
    refine (step.leaves (store ▸ rouses_setJob ..)).attempt vigilant (below.trans ?_) attempt
    rw [stack]
    exact List.suffix_cons _ _
  | ends stack _ _ store =>
    refine (step.leaves (store ▸ rouses_finish ..)).attempt vigilant (below.trans ?_) attempt
    rw [stack]
    exact List.suffix_cons _ _
  | attends way after =>
    rcases after.stack below with old | ⟨plain, _⟩ | ⟨w, k', group, attempt', rfl, next, store⟩
    · exact (step.leaves_of_attends way after).attempt vigilant old attempt
    · exact nomatch plain.symm.trans attempt
    · cases attempt'.symm.trans attempt
      obtain ⟨known, quiet, scope⟩ := step.sound.of_attends way
      obtain ⟨sizes, _, size⟩ := way.sizes
      rw [store]
      refine (vigilant.of_attends step.sound (orderly _) way).1.next (by rwa [sizes]) ?_ next
        fun i w member _ => by rw [sizes]; exact scope i w member
      rwa [ear_eq fun _ _ _ g' _ _ _ => size g']

private theorem Vigilant.finished_step (vigilant : m.Vigilant) (step : SoundStep host ρ ρ' m m')
    (shift : Shift m m') {outcome : Outcome} (ended : (m'.store.job j).state = .finished outcome) :
    (m'.store.job j).active = [] := by
  have idle : (m'.store.job j).state ≠ .running := fun running => nomatch ended.symm.trans running
  rcases Nat.lt_or_ge j m.store.jobs.size with known | new
  · have old : (m'.store.job j).state = (m.store.job j).state → (m'.store.job j).active = [] :=
      fun same => shift.active_eq_nil step idle (vigilant.finished j _ (same.symm.trans ended))
    cases step.rule.advance with
    | same _ state => exact old (state j known)
    | takes _ _ _ _ state | putsAside _ _ _ state | abandons _ _ _ state =>
      have state := state j
      split_ifs at state
      · exact nomatch state.symm.trans ended
      · exact old state
    | @ends j' outcome' control _ stack state =>
      have after := state j
      split_ifs at after with same
      · obtain ⟨rfl, _⟩ := same
        rw [step.store_of_ended control stack]
        exact active_finish ..
      · exact old after
  · exact shift.active_eq_nil step idle (active_of_size_le new)

theorem Vigilant.step (vigilant : m.Vigilant) (step : SoundStep host ρ ρ' m m')
    (orderly : ∀ g, IsOrderly (m.store.group g))
    (idle : ∀ j, m.control = .poll j → j ∉ advanced m.stack) : m'.Vigilant := by
  have shift := step.rule.shift fun j hc running =>
    idle j hc ((step.sound.running j).mp running)
  exact ⟨fun _ stuck => vigilant.stuck_step step orderly shift stuck,
    vigilant.left_step step orderly shift,
    fun _ _ waits => vigilant.waiting_step step shift waits,
    fun _ _ below => vigilant.advancing_step step shift below,
    fun _ _ _ _ _ below attempt => vigilant.attempts_step step orderly shift below attempt,
    fun _ _ ended => vigilant.finished_step step shift ended⟩

/-- Outside, listeners are told at most. -/
private theorem Outside.rouses (h : Outside m m') : Rouses Everyone m.store m'.store := by
  cases h with
  | requests | remembers => exact rouses_refl _
  | signals name =>
    have partitioned : Rouses Everyone m.store
        { m.store with awaited := (m.store.awaited.partition fun waiter => waiter.1 == name).2 } :=
      rouses_of_eq rfl rfl
    exact partitioned.trans (rouses_tell ..) (Nat.le_refl _)
  | dropsLoader | makesLoader => exact rouses_of_eq rfl rfl

theorem Vigilant.pause (vigilant : m.Vigilant) (pause : SoundPause ρ m m') : m'.Vigilant := by
  have kept := pause.change.kept
  have rouses := pause.change.rouses
  have passes : Passes Everyone m.store m'.store :=
    ⟨⟨m.store, rouses_refl _, rouses, Nat.le_refl _, rfl⟩, fun r _ => by
      rw [kept.record]
      exact ⟨rfl, rfl⟩⟩
  have empty : ∀ {frame below}, ¬ frame :: below <:+ m'.stack := fun h => by
    rw [pause.stack] at h
    exact nomatch List.suffix_nil.mp h
  have control : (∀ w, m'.control.stuck? m'.stack ≠ some w) ∧ m'.control.left = .nothing := by
    rcases pause.control with ⟨_, hc⟩ | ⟨_, hc⟩ <;> rw [hc] <;> exact ⟨nofun, rfl⟩
  refine ⟨fun w stuck => absurd stuck (control.1 w), ?_, fun j work waits => ?_,
    fun _ _ below => absurd below empty, fun _ _ _ _ _ below => absurd below empty,
    fun j outcome ended => ?_⟩
  · rw [control.2]
    exact .simple rfl
  · rw [kept.state_job] at waits
    have scope := (Work.Fits.over pause.sound.store (pause.sound.store.work j work waits)).mono
      (Q := fun g => g < m.store.groups.size ∧ ∀ i, Everyone (.member g i))
      fun _ ⟨_, owns⟩ => ⟨pause.sound.store.lt_of_owns owns, fun _ => trivial⟩
    obtain ⟨alert, watched⟩ := vigilant.waiting j work waits
    exact ⟨alert.pass trivial passes scope, watched.pass passes scope⟩
  · rw [kept.state_job] at ended
    exact rouses.heard (.job j) trivial (vigilant.finished j outcome ended)

end Steps

section Traced

variable {host : Host C M} {ρ : Roles} {m : Machine C M} {trace : List (Machine C M)}

/-- Whoever waits is alert, in every run in which host code does not poll imports. -/
theorem Traced.vigilant (h : Traced host ρ (m :: trace))
    (quiet : ∀ x ∈ m :: trace, x.hostPolls = false) : m.Vigilant := by
  refine h.invariant_of (P := fun _ m => m.Vigilant) (fun base resolver memory => ?_)
    (fun traced quiet step vigilant => ?_) (fun _ pause vigilant => vigilant.pause pause) quiet
  · exact ⟨nofun, .simple rfl, fun j _ waits => (nomatch waits),
      fun _ _ below => (nomatch List.suffix_nil.mp below),
      fun _ _ _ _ _ below => (nomatch List.suffix_nil.mp below), fun _ _ _ => rfl⟩
  · exact vigilant.step step traced.orderly fun j hc => traced.not_advanced_of_poll
      (traced.isFlat fun x mem => quiet x (List.mem_cons_of_mem _ mem)) hc

end Traced

end Machine

end ModuleSystem.Loader
