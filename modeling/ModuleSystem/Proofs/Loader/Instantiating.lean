import ModuleSystem.Proofs.Loader.Gathering
import ModuleSystem.Proofs.Loader.Synchronous

/-!
# Instantiating modules at once

With a synchronous host a module is instantiated as soon as its job is advanced. Linking a module
instantiates its dependencies, and makes records for those that are not registered. Between two
stores with nothing else in between, every record either is as it was, or was fresh and has adopted a
registration, or is new (`Store.Provides`). What the other modules need to be linked in turn stays as
it is.

## Main definitions

* `Store.Fresh`, `Store.Adopted`, `Store.IsOpen` : how far a module has come that is not linked.
* `Store.Tidy` : all that is registered can be instantiated at once.
* `Store.Grows`, `Store.Provides` : what may happen until a module is linked.

## Main results

* `Machine.Synchronous.instantiates` : to advance the job that instantiates a module ends the job
  well.
-/

namespace ModuleSystem.Loader

variable {C M : Type}

/-- A record is one of the same module, with the same jobs. -/
structure Record.SameIdentity (r r' : Record C) : Prop where
  url : r'.url = r.url
  instantiation : r'.instantiation = r.instantiation
  linking : r'.linking = r.linking
  evaluation : r'.evaluation = r.evaluation

theorem Record.SameIdentity.trans {r₁ r₂ r₃ : Record C} (h : r₁.SameIdentity r₂)
    (h' : r₂.SameIdentity r₃) : r₁.SameIdentity r₃ where
  url := h'.url.trans h.url
  instantiation := h'.instantiation.trans h.instantiation
  linking := h'.linking.trans h.linking
  evaluation := h'.evaluation.trans h.evaluation

theorem Record.Alike.sameIdentity {r r' : Record C} (h : r.Alike r') : r.SameIdentity r' :=
  ⟨h.url, h.instantiation, h.linking, h.evaluation⟩

namespace Store

/-- A module has been registered by an import, and nothing else has happened to it. -/
structure Fresh (s : Store C) (r : RecordId) : Prop where
  known : r < s.records.size
  state : (s.record r).state = .unlinked
  instantiation : (s.job (s.record r).instantiation).state = .waiting (.instantiate r)

/-- The job that instantiates a module has ended well. -/
structure IsInstantiated (s : Store C) (r : RecordId) : Prop where
  known : r < s.records.size
  bound : (s.record r).instantiation < s.jobs.size
  instantiation : (s.job (s.record r).instantiation).state = .finished (.ok ())

/-- A module has been instantiated, with a registration whose dependencies have URLs. -/
structure Adopted (s : Store C) (r : RecordId) : Prop extends s.IsInstantiated r where
  state : (s.record r).state = .instantiating
  paired : (s.record r).pendingSetters.length = (s.record r).specifiers.length
  resolves : ∀ specifier ∈ (s.record r).specifiers,
    (s.resolve specifier (some (s.record r).url)).isOk

/-- Nothing has been done to link a module. -/
structure IsOpen (s : Store C) (r : RecordId) : Prop where
  stage : s.Fresh r ∨ s.Adopted r
  linking : (s.job (s.record r).linking).state = .waiting (.link r)
  idle : (s.record r).evaluation = none

/-- A module of the loader has been instantiated, or can be at once, and no job executes it. -/
structure Loadable (s : Store C) (r : RecordId) : Prop where
  alive : s.isAlive r = true
  idle : (s.record r).evaluation = none
  stage : s.Fresh r ∨ s.IsInstantiated r

/-- All modules that are registered can be instantiated at once. -/
structure Tidy (s : Store C) : Prop where
  retired : s.retired ≤ s.records.size
  loadable : ∀ e ∈ s.registry, s.Loadable e.2

/-- Between two stores records have been made and registered, and none has been taken out of the
registry. No body has been started or has ended. -/
structure Grows (s s' : Store C) : Prop where
  size_records : s.records.size ≤ s'.records.size
  size_jobs : s.jobs.size ≤ s'.jobs.size
  size_groups : s.groups.size ≤ s'.groups.size
  lookup : ∀ url r, s.lookup url = some r → s'.lookup url = some r
  mem : ∀ e ∈ s'.registry, e ∈ s.registry ∨ s.records.size ≤ e.2 ∧ e.2 < s'.records.size
  retired : s'.retired = s.retired
  resolve : s'.resolve = s.resolve
  bodies : s'.bodies = s.bodies

/-- Between two stores modules have been instantiated and records made. Of the groups, the first `n`
have been left alone. -/
structure Provides (n : Nat) (s s' : Store C) : Prop extends s.Grows s' where
  group : ∀ g < n, Woken (s.group g) (s'.group g)
  job : ∀ j < s.jobs.size, (∀ r, (s.job j).state ≠ .waiting (.instantiate r)) →
    (s'.job j).state = (s.job j).state
  record : ∀ r < s.records.size,
    (s.record r).Alike (s'.record r) ∧ (s.Fresh r → s'.Fresh r) ∨
      (s.record r).state = .unlinked ∧ s'.Adopted r ∧ (s.record r).SameIdentity (s'.record r)
  new : ∀ r, s.records.size ≤ r → r < s'.records.size → s'.IsOpen r

section Grows

variable {s s' s₁ s₂ s₃ : Store C}

theorem Grows.refl (s : Store C) : Grows s s :=
  ⟨Nat.le_refl _, Nat.le_refl _, Nat.le_refl _, fun _ _ h => h, fun _ h => .inl h, rfl, rfl, rfl⟩

theorem Grows.trans (h : Grows s₁ s₂) (h' : Grows s₂ s₃) : Grows s₁ s₃ where
  size_records := Nat.le_trans h.size_records h'.size_records
  size_jobs := Nat.le_trans h.size_jobs h'.size_jobs
  size_groups := Nat.le_trans h.size_groups h'.size_groups
  lookup url r hr := h'.lookup url r (h.lookup url r hr)
  mem e he := by
    rcases h'.mem e he with he | ⟨le, lt⟩
    · exact (h.mem e he).imp_right fun ⟨le, lt⟩ => ⟨le, Nat.lt_of_lt_of_le lt h'.size_records⟩
    · exact .inr ⟨Nat.le_trans h.size_records le, lt⟩
  retired := h'.retired.trans h.retired
  resolve := h'.resolve.trans h.resolve
  bodies := h'.bodies.trans h.bodies

theorem Grows.isAlive (h : Grows s₁ s₂) : s₂.isAlive = s₁.isAlive := by
  funext r
  rw [Store.isAlive, h.retired, Store.isAlive]

theorem Steady.grows (h : Steady s s') : Grows s s' where
  size_records := Nat.le_of_eq h.size_records.symm
  size_jobs := Nat.le_of_eq h.size_jobs.symm
  size_groups := Nat.le_of_eq h.size_groups.symm
  lookup url r hr := by rwa [h.lookup]
  mem e he := .inl (h.registry ▸ he)
  retired := h.retired
  resolve := h.resolve
  bodies := h.bodies

theorem Creates.grows (h : Creates s s') : Grows s s' where
  size_records := h.size_records_le
  size_jobs := h.size_jobs_le
  size_groups := Nat.le_of_eq h.same.2.1.symm
  lookup url r hr := by
    induction h with
    | refl => exact hr
    | create _ target referrer _ ih =>
      rw [Store.lookup, create_same.2.2.2.2.2.2.1, List.lookup_append, ← Store.lookup, ih]
      rfl
  mem e he := h.mem_registry he
  retired := h.same.2.2.1
  resolve := by
    induction h with
    | refl => rfl
    | create _ target referrer _ ih => exact ih
  bodies := by
    induction h with
    | refl => rfl
    | create _ target referrer _ ih => exact ih

end Grows

section Provides

variable {s s' s₁ s₂ s₃ : Store C} {n : Nat} {r : RecordId} {g : GroupId}

/-- Modules that were not fresh are as they were. -/
theorem Provides.alike (h : Provides n s s') (known : r < s.records.size)
    (begun : (s.record r).state ≠ .unlinked) : (s.record r).Alike (s'.record r) := by
  rcases h.record r known with ⟨alike, _⟩ | ⟨fresh, _⟩
  · exact alike
  · exact absurd fresh begun

theorem Provides.sameIdentity (h : Provides n s s') (known : r < s.records.size) :
    (s.record r).SameIdentity (s'.record r) := by
  rcases h.record r known with ⟨alike, _⟩ | ⟨_, _, same⟩
  · exact alike.sameIdentity
  · exact same

theorem Provides.isInstantiated (h : Provides n s s') (done : s.IsInstantiated r) :
    s'.IsInstantiated r := by
  have same := h.sameIdentity done.known
  refine ⟨Nat.lt_of_lt_of_le done.known h.size_records, ?_, ?_⟩
  · rw [same.instantiation]
    exact Nat.lt_of_lt_of_le done.bound h.size_jobs
  · rw [same.instantiation, h.job _ done.bound (by simp [done.instantiation]), done.instantiation]

theorem Provides.adopted (h : Provides n s s') (done : s.Adopted r) : s'.Adopted r := by
  have alike := h.alike done.known (by simp [done.state])
  refine ⟨h.isInstantiated done.toIsInstantiated, alike.state.trans done.state, ?_, ?_⟩
  · rw [alike.pendingSetters, alike.specifiers, done.paired]
  · rw [alike.specifiers, alike.url, h.resolve]
    exact done.resolves

theorem Provides.isOpen (h : Provides n s s') (isOpen : s.IsOpen r) : s'.IsOpen r := by
  have known : r < s.records.size := isOpen.stage.elim Fresh.known fun h => h.known
  have same := h.sameIdentity known
  refine ⟨?_, ?_, same.evaluation.trans isOpen.idle⟩
  · rcases isOpen.stage with fresh | adopted
    · exact (h.record r known).imp (fun ⟨_, stays⟩ => stays fresh) fun ⟨_, adopted, _⟩ => adopted
    · exact .inr (h.adopted adopted)
  · rw [same.linking, h.job _ (lt_of_waiting isOpen.linking) (by simp [isOpen.linking]),
      isOpen.linking]

theorem IsOpen.known (isOpen : s.IsOpen r) : r < s.records.size :=
  isOpen.stage.elim Fresh.known fun h => h.known

theorem IsOpen.loadable (isOpen : s.IsOpen r) (alive : s.isAlive r = true) : s.Loadable r :=
  ⟨alive, isOpen.idle, isOpen.stage.imp_right Adopted.toIsInstantiated⟩

theorem Loadable.known (loadable : s.Loadable r) : r < s.records.size :=
  loadable.stage.elim Fresh.known IsInstantiated.known

theorem Provides.loadable (h : Provides n s s') (loadable : s.Loadable r) : s'.Loadable r := by
  refine ⟨by rw [h.isAlive, loadable.alive], ?_, ?_⟩
  · rw [(h.sameIdentity loadable.known).evaluation, loadable.idle]
  · rcases loadable.stage with fresh | done
    · exact (h.record r fresh.known).imp (fun ⟨_, stays⟩ => stays fresh)
        fun ⟨_, adopted, _⟩ => adopted.toIsInstantiated
    · exact .inr (h.isInstantiated done)

theorem Provides.tidy (h : Provides n s s') (tidy : s.Tidy) : s'.Tidy where
  retired := h.retired ▸ Nat.le_trans tidy.retired h.size_records
  loadable e he := by
    rcases h.mem e he with he | ⟨le, lt⟩
    · exact h.loadable (tidy.loadable e he)
    · refine (h.new e.2 le lt).loadable (isAlive_eq_true.mpr ?_)
      rw [h.retired]
      exact Nat.le_trans tidy.retired le

theorem Provides.mono {k : Nat} (h : Provides n s s') (le : k ≤ n) : Provides k s s' where
  toGrows := h.toGrows
  group g hg := h.group g (Nat.lt_of_lt_of_le hg le)
  job := h.job
  record := h.record
  new := h.new

theorem Provides.refl (s : Store C) : Provides n s s where
  toGrows := .refl s
  group _ _ := .refl _
  job _ _ _ := rfl
  record _ _ := .inl ⟨.refl _, id⟩
  new _ le lt := absurd lt (Nat.not_lt_of_le le)

theorem Provides.trans (h : Provides n s₁ s₂) (h' : Provides n s₂ s₃) : Provides n s₁ s₃ where
  toGrows := h.toGrows.trans h'.toGrows
  group g hg := (h.group g hg).trans (h'.group g hg)
  job j hj other := by
    have same := h.job j hj other
    rw [h'.job j (Nat.lt_of_lt_of_le hj h.size_jobs) (by rwa [same]), same]
  record r hr := by
    have hr' := Nat.lt_of_lt_of_le hr h.size_records
    have same := (h.sameIdentity hr).trans (h'.sameIdentity hr')
    rcases h.record r hr with ⟨alike, stays⟩ | ⟨fresh, adopted, _⟩
    · refine (h'.record r hr').imp (fun ⟨alike', stays'⟩ => ⟨alike.trans alike', stays' ∘ stays⟩) ?_
      rintro ⟨fresh, adopted, _⟩
      exact ⟨alike.state.symm.trans fresh, adopted, same⟩
    · exact .inr ⟨fresh, h'.adopted adopted, same⟩
  new r le lt := by
    rcases Nat.lt_or_ge r s₂.records.size with lt' | le'
    · exact h'.isOpen (h.new r le lt')
    · exact h'.new r le' lt

theorem Untouched.provides (h : Untouched s s') : Provides n s s' where
  toGrows := h.grows
  group g _ := h.group ▸ .refl _
  job j _ _ := by rw [h.job]
  record r hr := by
    refine .inl ⟨h.record r, fun fresh => ⟨?_, ?_, ?_⟩⟩
    · rw [h.size_records]
      exact fresh.known
    · exact (h.record r).state.trans fresh.state
    · rw [(h.record r).instantiation, h.job, fresh.instantiation]
  new r le lt := absurd (h.size_records ▸ lt) (Nat.not_lt_of_le le)

/-- Records are made for dependencies. -/
theorem Creates.provides (h : Creates s s') : Provides n s s' where
  toGrows := h.grows
  group g _ := h.same.1 ▸ .refl _
  job j hj _ := h.state_job_eq hj
  record r hr := by
    have same := h.record_eq hr
    refine .inl ⟨same ▸ .refl _, fun fresh => ⟨?_, by rw [same, fresh.state], ?_⟩⟩
    · exact Nat.lt_of_lt_of_le hr h.size_records_le
    · rw [same, h.state_job_eq (lt_of_waiting fresh.instantiation), fresh.instantiation]
  new r le lt := by
    obtain ⟨url, referrer, i, l, record, ⟨_, _, instantiation⟩, ⟨_, _, linking⟩⟩ :=
      h.record_new le lt
    refine ⟨.inl ⟨lt, ?_, ?_⟩, ?_, ?_⟩ <;> rw [record]
    · exact instantiation
    · exact linking

/-- Other groups are made, or advanced. -/
theorem provides_of_groups (steady : s.records = s'.records ∧ s.jobs = s'.jobs) (grows : Grows s s')
    (group : ∀ g < n, s'.group g = s.group g) : Provides n s s' := by
  have record : s'.record = s.record := by
    unfold Store.record
    rw [steady.1]
  have job : s'.job = s.job := by
    unfold Store.job
    rw [steady.2]
  refine ⟨grows, fun g hg => group g hg ▸ .refl _, fun j _ _ => by rw [job], fun r hr => ?_,
    fun r le lt => absurd (steady.1 ▸ lt) (Nat.not_lt_of_le le)⟩
  rw [record]
  refine .inl ⟨.refl _, fun fresh => ⟨?_, by rw [record, fresh.state], ?_⟩⟩
  · exact Nat.lt_of_lt_of_le hr grows.size_records
  · rw [record, job, fresh.instantiation]

theorem provides_setGroup {x : Group} (own : n ≤ g) : Provides n s (s.setGroup g x) :=
  provides_of_groups ⟨rfl, rfl⟩ steady_setGroup.grows fun g' hg => by
    rw [group_setGroup, if_neg]
    rintro ⟨rfl, _⟩
    exact Nat.not_lt_of_le own hg

theorem provides_newGroup {size : Nat} (own : n ≤ s.groups.size) :
    Provides n s (s.newGroup size).1 := by
  refine provides_of_groups ⟨rfl, rfl⟩ ?_ fun g hg => ?_
  · refine ⟨Nat.le_refl _, Nat.le_refl _, ?_, fun _ _ h => h, fun _ h => .inl h, rfl, rfl, rfl⟩
    rw [size_groups_newGroup]
    exact Nat.le_succ _
  · rw [group_newGroup, if_neg (Nat.ne_of_lt (Nat.lt_of_lt_of_le hg own))]

end Provides

/-! ### The hook of a module -/

section Hook

variable {s s' : Store C} {r : RecordId} {j : JobId} {l : Listener} {n : Nat}
  {registration : Registration C}

theorem length_addSetters (s : Store C) (runs : List (Option (RecordId → C))) :
    (s.addSetters runs).2.length = runs.length := by
  induction runs generalizing s with
  | nil => rfl
  | cons run runs ih => cases run <;> simp [addSetters, ih]

/-- A module has a setter, or none, for each dependency that its hook registers. -/
theorem length_pendingSetters_adopt (known : r < s.records.size) :
    ((s.adopt r registration).record r).pendingSetters.length = registration.setters.length := by
  rw [adopt, record_update_self (by simpa using known), length_addSetters]

/-- The store in which a job is being advanced. -/
def take (s : Store C) (j : JobId) (l : Listener) : Store C :=
  (s.subscribe j l).setJob j .running

@[simp] theorem take_same :
    (s.take j l).record = s.record ∧ (s.take j l).records.size = s.records.size ∧
    (s.take j l).group = s.group ∧ (s.take j l).isAlive = s.isAlive := by
  simp [take]

theorem steady_take : Steady s (s.take j l) :=
  steady_subscribe.trans steady_setJob

theorem state_job_take (i : JobId) : ((s.take j l).job i).state =
    if i = j ∧ j < s.jobs.size then .running else (s.job i).state := by
  rw [take, state_job_setJob, size_jobs_subscribe, state_job_subscribe]

/-- A fresh module is instantiated: its hook is called, does what it does to others, and registers
what is adopted. -/
theorem Fresh.provides (fresh : s.Fresh r) (hj : (s.record r).instantiation = j)
    (same : Untouched (((s.take j l).enter r .instantiating).note (.hookCalled r)) s')
    (paired : registration.setters.length = registration.dependencies.length)
    (resolves : ∀ specifier ∈ registration.dependencies,
      (s.resolve specifier (some (s.record r).url)).isOk) :
    Provides n s ((s'.adopt r registration).finish j (.ok ())) ∧
      ((s'.adopt r registration).finish j (.ok ())).Adopted r := by
  subst hj
  have steady : Steady s ((s'.adopt r registration).finish (s.record r).instantiation (.ok ())) :=
    ((((steady_take.trans steady_enter).trans (steady_note rfl)).trans same.toSteady).trans
      steady_adopt).trans steady_finish
  have bound : (s.record r).instantiation < s.jobs.size := lt_of_waiting fresh.instantiation
  have size : (s'.adopt r registration).jobs.size = s.jobs.size := by
    simp [same.size_jobs, take]
  have known : r < s'.records.size := by
    rw [same.size_records]
    simpa using fresh.known
  have job : ∀ i, (((s'.adopt r registration).finish (s.record r).instantiation (.ok ())).job
      i).state = if i = (s.record r).instantiation then .finished (.ok ()) else (s.job i).state := by
    intro i
    rw [state_job_finish, size, adopt_same.1, same.job, note_same.2.2.1, enter_same.1,
      state_job_take]
    simp only [bound, and_true]
    split_ifs <;> rfl
  have others : ∀ i ≠ r, (s.record i).Alike
      (((s'.adopt r registration).finish (s.record r).instantiation (.ok ())).record i) := by
    intro i ne
    have alike := same.record i
    rw [note_same.1, record_enter_of_ne ne, take_same.1] at alike
    rwa [finish_same.1, record_adopt_of_ne ne]
  have entered : (((s.take (s.record r).instantiation l).enter r .instantiating).note
      (.hookCalled r)).record r = { s.record r with state := .instantiating } := by
    rw [note_same.1, record_enter_self (by simpa using fresh.known), take_same.1, Record.enter,
      fresh.state]
  have alike := same.record r
  rw [entered] at alike
  obtain ⟨setters, record⟩ : ∃ setters, (s'.adopt r registration).record r = _ :=
    record_adopt_self known
  have identity : (s.record r).SameIdentity
      (((s'.adopt r registration).finish (s.record r).instantiation (.ok ())).record r) := by
    rw [finish_same.1, record]
    exact ⟨alike.url, alike.instantiation, alike.linking, alike.evaluation⟩
  have adopted : ((s'.adopt r registration).finish (s.record r).instantiation (.ok ())).Adopted
      r := by
    refine ⟨⟨?_, ?_, ?_⟩, ?_, ?_, ?_⟩
    · rw [steady.size_records]
      exact fresh.known
    · rw [identity.instantiation, steady.size_jobs]
      exact bound
    · rw [identity.instantiation, job, if_pos rfl]
    · rw [finish_same.1, record]
      exact alike.state
    · rw [finish_same.1, length_pendingSetters_adopt known, record, paired]
    · rw [identity.url, steady.resolve, finish_same.1, record]
      exact resolves
  refine ⟨⟨steady.grows, fun g _ => ?_, fun i _ other => ?_, fun i hi => ?_, fun i le lt => ?_⟩,
    adopted⟩
  · have woken := woken_finish (s'.adopt r registration) (s.record r).instantiation (.ok ()) g
    rwa [adopt_same.2.2.1, same.group, note_same.2.2.2.2.1, enter_same.2.2.1,
      take_same.2.2.1] at woken
  · rw [job, if_neg]
    rintro rfl
    exact other r fresh.instantiation
  · by_cases ne : i = r
    · subst ne
      exact .inr ⟨fresh.state, adopted, identity⟩
    · refine .inl ⟨others i ne, fun own => ⟨?_, ?_, ?_⟩⟩
      · rw [steady.size_records]
        exact own.known
      · rw [(others i ne).state, own.state]
      · rw [(others i ne).instantiation, job, if_neg, own.instantiation]
        intro shared
        have := own.instantiation
        rw [shared, fresh.instantiation] at this
        cases this
        exact ne rfl
  · rw [steady.size_records] at lt
    exact absurd lt (Nat.not_lt_of_le le)

end Hook

end Store

namespace Machine

open Store

/-- A registration that is accepted has a setter, or none, for each dependency. -/
theorem paired_of_valid {result : Except HostError (Registration C)} {registration : Registration C}
    (valid : result.bind Registration.validate = .ok registration) :
    registration.setters.length = registration.dependencies.length := by
  cases result with
  | error => cases valid
  | ok given =>
    simp only [Except.bind, Registration.validate] at valid
    split at valid
    · next paired =>
      cases valid
      exact paired
    · cases valid

section Instantiating

variable {host : Host C M} {limit n : Nat} {s : Store C} {memory : M} {st : List (Frame C)}
  {r : RecordId}

/-- To advance the job that instantiates a fresh module runs the hook of the module to its end. -/
private theorem Synchronous.instantiates_fresh
    (sync : Synchronous host limit ⟨s, memory, st, .poll (s.record r).instantiation⟩)
    (fresh : s.Fresh r) (alive : s.isAlive r = true) :
    ∃ s' memory', RunsTo host ⟨s, memory, st, .poll (s.record r).instantiation⟩
        ⟨s', memory', st, .polled (some (.ok ()))⟩ ∧
      Provides n s s' ∧ s'.Adopted r := by
  obtain ⟨l, polls⟩ : ∃ l, step host ⟨s, memory, st, .poll (s.record r).instantiation⟩ =
      ⟨s.take (s.record r).instantiation l, memory,
        .advancing (s.record r).instantiation :: st, .work (.instantiate r)⟩ :=
    ⟨_, by simp only [step, poll, fresh.instantiation]; rfl⟩
  have calls : ∃ code, step host ⟨s.take (s.record r).instantiation l, memory,
        .advancing (s.record r).instantiation :: st, .work (.instantiate r)⟩ =
      ⟨((s.take (s.record r).instantiation l).enter r .instantiating).note (.hookCalled r), memory,
        .hook r :: .advancing (s.record r).instantiation :: st, .host code⟩ := by
    refine ⟨host.instantiate
      { module := r, url := (s.record r).url, referrer := (s.record r).firstReferrer }, ?_⟩
    simp only [step, doWork, callHook, take_same, alive, stateOf_eq, fresh.state]
    rfl
  obtain ⟨code, calls⟩ := calls
  have begins := (RunsTo.of_step polls (by simp)).trans (.of_step calls (by simp))
  obtain ⟨s', memory₁, memory₂, code', result, runs, same, ends⟩ :=
    (sync.of_runsTo begins).ends_hook
  have exports := sync.exports _ (begins.trans runs)
  simp only [exportsOnly, ends] at exports
  cases valid : result.bind Registration.validate with
  | error reason =>
    rw [valid] at exports
    cases exports
  | ok registration =>
    rw [valid] at exports
    have resolves : ∀ specifier ∈ registration.dependencies,
        (s.resolve specifier (some (s.record r).url)).isOk := by
      have url := (same.record r).url
      rw [note_same.1, record_enter, url_update fun _ => Record.enter_same.1, take_same.1] at url
      have resolve : s'.resolve = s.resolve :=
        same.resolve.trans (steady_take.trans (steady_enter.trans (steady_note rfl))).resolve
      rw [url, resolve] at exports
      exact List.all_eq_true.mp exports
    have alive' : s'.isAlive r = true := by
      rw [same.toSteady.isAlive, note_same.2.2.2.2.2.2.2.2, enter_same.2.2.2.2.2.2, take_same.2.2.2,
        alive]
    have state : s'.stateOf r = .instantiating := by
      rw [stateOf_eq, (same.record r).state, note_same.1, record_enter_self (by simpa using fresh.known),
        take_same.1, Record.enter, fresh.state]
    have registers : step host ⟨s', memory₁,
          .hook r :: .advancing (s.record r).instantiation :: st, .host code'⟩ =
        ⟨s'.adopt r registration, memory₂, .advancing (s.record r).instantiation :: st,
          .ended (.ok ())⟩ := by
      simp only [step, runHost, ends, hostEnds, endHook, pop, alive', valid, state]
      rfl
    have finishes : step host ⟨s'.adopt r registration, memory₂,
          .advancing (s.record r).instantiation :: st, .ended (.ok ())⟩ =
        ⟨(s'.adopt r registration).finish (s.record r).instantiation (.ok ()), memory₂, st,
          .polled (some (.ok ()))⟩ := rfl
    exact ⟨_, _, ((begins.trans runs).trans (.of_step registers (by simp))).trans
      (.of_step finishes (by simp)), fresh.provides rfl same (paired_of_valid valid) resolves⟩

/-- To advance the job that instantiates a module ends the job well. -/
theorem Synchronous.instantiates
    (sync : Synchronous host limit ⟨s, memory, st, .poll (s.record r).instantiation⟩)
    (loadable : s.Loadable r) :
    ∃ s' memory', RunsTo host ⟨s, memory, st, .poll (s.record r).instantiation⟩
        ⟨s', memory', st, .polled (some (.ok ()))⟩ ∧
      Provides n s s' ∧ s'.IsInstantiated r ∧ (s.Fresh r ∨ s.Adopted r → s'.Adopted r) := by
  rcases loadable.stage with fresh | done
  · obtain ⟨s', memory', runs, provides, adopted⟩ :=
      sync.instantiates_fresh (n := n) fresh loadable.alive
    exact ⟨s', memory', runs, provides, adopted.toIsInstantiated, fun _ => adopted⟩
  · have known : step host ⟨s, memory, st, .poll (s.record r).instantiation⟩ =
        ⟨s, memory, st, .polled (some (.ok ()))⟩ := by
      simp only [step, poll, done.instantiation]
      rfl
    refine ⟨s, memory, .of_step known (by simp), .refl s, done, fun stage => ?_⟩
    refine stage.resolve_left fun fresh => ?_
    have := fresh.instantiation
    rw [done.instantiation] at this
    cases this

end Instantiating

end Machine

end ModuleSystem.Loader
