import ModuleSystem.Proofs.Loader.Store

/-!
# Making and deleting records

Records are made in one of two ways: for a URL that is imported, with the jobs that instantiate and
link the module (`Store.create`), or executed from the start (`Store.define`). The dependencies of a
module may make any number of records in one step; `Store.Creates` is the relation between the
stores before and after. Deleting a module takes its setters away and leaves its progress as it is.
-/

namespace ModuleSystem.Loader

variable {C M : Type}

namespace Store

/-- The store with a record for a URL that is not registered, and the jobs of the record. -/
def create (s : Store C) (url : Url) (referrer : Option Url) : Store C :=
  (((s.newJob (.waiting (.instantiate s.records.size))).1.newJob
    (.waiting (.link s.records.size))).1.register
      { url, firstReferrer := referrer, instantiation := s.jobs.size
        linking := s.jobs.size + 1 }).1

/-- Records have been made, one after the other, for URLs that were not registered. -/
inductive Creates (s : Store C) : Store C → Prop
  | refl : Creates s s
  | create {s'} (h : Creates s s') (url : Url) (referrer : Option Url)
      (fresh : s'.lookup url = none) : Creates s (s'.create url referrer)

section Registering

variable {s s' : Store C} {r r' : RecordId} {j j' : JobId} {g : GroupId} {x : Record C} {url : Url}
  {referrer : Option Url} {entries : List (String × Value)}

theorem record_register : (s.register x).1.record r =
    if r = s.records.size then x else s.record r := by
  simp only [record, register, note, Array.getElem?_push]
  split_ifs <;> simp

/-- Registering a record leaves the others, the jobs and the groups alone. -/
@[simp] theorem register_same :
    (s.register x).1.records.size = s.records.size + 1 ∧ (s.register x).1.job = s.job ∧
    (s.register x).1.jobs.size = s.jobs.size ∧ (s.register x).1.group = s.group ∧
    (s.register x).1.groups.size = s.groups.size ∧ (s.register x).1.retired = s.retired ∧
    (s.register x).1.isAlive = s.isAlive ∧
    (s.register x).1.registry = s.registry ++ [(x.url.href, s.records.size)] ∧
    (s.register x).1.milestones = .registered s.records.size :: s.milestones := by
  simp only [register, note_same, milestones_note, Array.size_push]
  exact ⟨trivial, rfl, trivial, rfl, trivial, trivial, rfl, trivial, rfl⟩

@[simp] theorem snd_register : (s.register x).2 = s.records.size := rfl

/-! ### Records for URLs -/

theorem getOrCreate_of_lookup (h : s.lookup url = some r) :
    s.getOrCreate url referrer = (s, r) := by
  simp [getOrCreate, h]

theorem getOrCreate_of_lookup_none (h : s.lookup url = none) :
    s.getOrCreate url referrer = (s.create url referrer, s.records.size) := by
  simp only [getOrCreate, h]
  rw [Prod.ext_iff]
  refine ⟨?_, rfl⟩
  simp [create]

theorem record_create : (s.create url referrer).record r =
    if r = s.records.size then
      { url, firstReferrer := referrer, instantiation := s.jobs.size
        linking := s.jobs.size + 1 }
    else s.record r := by
  simp [create, record_register]

theorem record_create_of_ne (h : r ≠ s.records.size) :
    (s.create url referrer).record r = s.record r := by
  rw [record_create, if_neg h]

theorem state_job_create : ((s.create url referrer).job j).state =
    if j = s.jobs.size + 1 then .waiting (.link s.records.size)
    else if j = s.jobs.size then .waiting (.instantiate s.records.size)
    else (s.job j).state := by
  simp [create, state_job_newJob]

@[simp] theorem create_same :
    (s.create url referrer).records.size = s.records.size + 1 ∧
    (s.create url referrer).jobs.size = s.jobs.size + 2 ∧
    (s.create url referrer).group = s.group ∧
    (s.create url referrer).groups.size = s.groups.size ∧
    (s.create url referrer).retired = s.retired ∧
    (s.create url referrer).isAlive = s.isAlive ∧
    (s.create url referrer).registry = s.registry ++ [(url.href, s.records.size)] ∧
    (s.create url referrer).milestones = .registered s.records.size :: s.milestones := by
  simp [create]

theorem Creates.trans {s₁ s₂ s₃ : Store C} (h : Creates s₁ s₂) (h' : Creates s₂ s₃) :
    Creates s₁ s₃ := by
  induction h' with
  | refl => exact h
  | create _ url referrer fresh ih => exact .create ih url referrer fresh

theorem creates_getOrCreate (s : Store C) (url : Url) (referrer : Option Url) :
    Creates s (s.getOrCreate url referrer).1 := by
  cases h : s.lookup url with
  | some r =>
    rw [getOrCreate_of_lookup h]
    exact .refl
  | none =>
    rw [getOrCreate_of_lookup_none h]
    exact .create .refl url referrer h

/-- The record that is got or made for a URL is registered. -/
theorem registered_getOrCreate (s : Store C) (url : Url) (referrer : Option Url) :
    ∃ e ∈ (s.getOrCreate url referrer).1.registry, e.2 = (s.getOrCreate url referrer).2 := by
  cases h : s.lookup url with
  | some r =>
    rw [getOrCreate_of_lookup h]
    obtain ⟨l₁, l₂, h, _⟩ := List.lookup_eq_some_iff.mp h
    exact ⟨(url.href, r), by rw [h]; simp, rfl⟩
  | none =>
    rw [getOrCreate_of_lookup_none h]
    exact ⟨(url.href, s.records.size), by simp, rfl⟩

theorem lookup_getOrCreate :
    (s.getOrCreate url referrer).1.lookup url = some (s.getOrCreate url referrer).2 := by
  cases h : s.lookup url with
  | some r => rw [getOrCreate_of_lookup h, h]
  | none =>
    rw [getOrCreate_of_lookup_none h, Store.lookup, create_same.2.2.2.2.2.2.1, List.lookup_append,
      ← Store.lookup, h]
    simp

/-- Resolving dependencies makes records and changes nothing else. -/
theorem creates_resolveDependencies {specifiers : List (String × Option SetterId)}
    {result : Except LoaderError (List Dependency)}
    (h : Machine.resolveDependencies url s specifiers = (s', result)) : Creates s s' := by
  induction specifiers generalizing s s' result with
  | nil =>
    rw [Machine.resolveDependencies] at h
    cases h
    exact .refl
  | cons specifier rest ih =>
    rw [Machine.resolveDependencies] at h
    split at h
    · cases h
      exact .refl
    · rename_i target _
      rcases hr : Machine.resolveDependencies url (s.getOrCreate target (some url)).1 rest with
        ⟨s₂, others⟩
      simp only [hr] at h
      cases h
      exact (creates_getOrCreate s target (some url)).trans (ih hr)

section Creates

variable (h : Creates s s')

include h

theorem Creates.size_records_le : s.records.size ≤ s'.records.size := by
  induction h with
  | refl => exact Nat.le_refl _
  | create _ url referrer _ ih => simpa using Nat.le_succ_of_le ih

theorem Creates.size_jobs_le : s.jobs.size ≤ s'.jobs.size := by
  induction h with
  | refl => exact Nat.le_refl _
  | create _ url referrer _ ih =>
    rw [(create_same).2.1]
    exact Nat.le_add_right_of_le ih

/-- What has been registered stays so while records are made. -/
theorem Creates.registry_subset : s.registry ⊆ s'.registry := by
  induction h with
  | refl => exact List.Subset.refl _
  | create _ url referrer _ ih =>
    rw [create_same.2.2.2.2.2.2.1]
    exact List.Subset.trans ih (List.subset_append_left _ _)

/-- What is registered while records are made is new. -/
theorem Creates.mem_registry {e : String × RecordId} (he : e ∈ s'.registry) :
    e ∈ s.registry ∨ s.records.size ≤ e.2 ∧ e.2 < s'.records.size := by
  induction h with
  | refl => exact .inl he
  | create h url referrer _ ih =>
    rw [create_same.2.2.2.2.2.2.1, List.mem_append, List.mem_singleton] at he
    rw [create_same.1]
    rcases he with he | rfl
    · exact (ih he).imp_right fun h => ⟨h.1, Nat.lt_succ_of_lt h.2⟩
    · exact .inr ⟨h.size_records_le, Nat.lt_succ_self _⟩

/-- Records that exist stay as they are while others are made. -/
theorem Creates.record_eq (hr : r < s.records.size) : s'.record r = s.record r := by
  induction h with
  | refl => rfl
  | create h url referrer _ ih =>
    rw [record_create_of_ne (Nat.ne_of_lt (Nat.lt_of_lt_of_le hr h.size_records_le)), ih]

/-- Jobs that exist stay as they are while records are made. -/
theorem Creates.state_job_eq (hj : j < s.jobs.size) :
    (s'.job j).state = (s.job j).state := by
  induction h with
  | refl => rfl
  | create h url referrer _ ih =>
    have hlt := Nat.lt_of_lt_of_le hj h.size_jobs_le
    rw [state_job_create, if_neg (Nat.ne_of_lt (Nat.lt_succ_of_lt hlt)),
      if_neg (Nat.ne_of_lt hlt), ih]

theorem Creates.same : s'.group = s.group ∧ s'.groups.size = s.groups.size ∧
    s'.retired = s.retired ∧ s'.isAlive = s.isAlive := by
  induction h with
  | refl => exact ⟨rfl, rfl, rfl, rfl⟩
  | create _ url referrer _ ih => simpa using ih

/-- While records are made, nothing else happens that modules are counted by. -/
theorem Creates.count_milestones {e : Event} (he : ∀ r, e ≠ .registered r) :
    s'.milestones.count e = s.milestones.count e := by
  induction h with
  | refl => rfl
  | create h url referrer _ ih =>
    rw [(create_same).2.2.2.2.2.2.2, List.count_cons_of_ne (he _).symm, ih]

theorem Creates.milestones_suffix : s.milestones <:+ s'.milestones := by
  induction h with
  | refl => exact List.suffix_refl _
  | create h url referrer _ ih =>
    rw [(create_same).2.2.2.2.2.2.2]
    exact ih.trans (List.suffix_cons _ _)

/-- A record that has been made has jobs of its own that have not started. -/
theorem Creates.record_new (hr : s.records.size ≤ r) (hr' : r < s'.records.size) :
    ∃ url firstReferrer instantiation linking,
      s'.record r = { url, firstReferrer, instantiation, linking } ∧
      (s.jobs.size ≤ instantiation ∧ instantiation < s'.jobs.size ∧
        (s'.job instantiation).state = .waiting (.instantiate r)) ∧
      (s.jobs.size ≤ linking ∧ linking < s'.jobs.size ∧
        (s'.job linking).state = .waiting (.link r)) := by
  induction h with
  | refl => exact absurd hr' (Nat.not_lt_of_le hr)
  | @create s' h url referrer _ ih =>
    have hsize := h.size_jobs_le
    rw [create_same.1] at hr'
    rcases Nat.lt_or_eq_of_le (Nat.le_of_lt_succ hr') with hlt | rfl
    · obtain ⟨u, p, i, l, hrecord, ⟨hi, hi', hi''⟩, ⟨hl, hl', hl''⟩⟩ := ih hlt
      refine ⟨u, p, i, l, ?_, ⟨hi, ?_, ?_⟩, ⟨hl, ?_, ?_⟩⟩
      · rw [record_create_of_ne (Nat.ne_of_lt hlt), hrecord]
      · exact Nat.lt_of_lt_of_le hi' (by simp)
      · rw [state_job_create, if_neg (Nat.ne_of_lt (Nat.lt_succ_of_lt hi')),
          if_neg (Nat.ne_of_lt hi'), hi'']
      · exact Nat.lt_of_lt_of_le hl' (by simp)
      · rw [state_job_create, if_neg (Nat.ne_of_lt (Nat.lt_succ_of_lt hl')),
          if_neg (Nat.ne_of_lt hl'), hl'']
    · refine ⟨url, referrer, s'.jobs.size, s'.jobs.size + 1, ?_, ⟨hsize, ?_, ?_⟩,
        ⟨Nat.le_succ_of_le hsize, ?_, ?_⟩⟩
      · rw [record_create, if_pos rfl]
      · rw [create_same.2.1]
        exact Nat.lt_add_of_pos_right (by decide)
      · rw [state_job_create, if_neg (Nat.ne_of_lt (Nat.lt_succ_self _)), if_pos rfl]
      · rw [create_same.2.1]
        exact Nat.lt_succ_self _
      · rw [state_job_create, if_pos rfl]

/-- A job that is new after records have been made is one of theirs. -/
theorem Creates.job_new (hj : s.jobs.size ≤ j) (hj' : j < s'.jobs.size) :
    ∃ r, s.records.size ≤ r ∧ r < s'.records.size ∧
      ((s'.record r).instantiation = j ∧ (s'.job j).state = .waiting (.instantiate r) ∨
        (s'.record r).linking = j ∧ (s'.job j).state = .waiting (.link r)) := by
  induction h with
  | refl => exact absurd hj' (Nat.not_lt_of_le hj)
  | @create s' h url referrer _ ih =>
    have hsize := h.size_records_le
    have hnew : (s'.create url referrer).records.size = s'.records.size + 1 := create_same.1
    rw [create_same.2.1] at hj'
    rcases Nat.lt_or_ge j s'.jobs.size with hlt | hge
    · obtain ⟨r, hr, hr', hstate⟩ := ih hlt
      refine ⟨r, hr, by rw [hnew]; exact Nat.lt_succ_of_lt hr', ?_⟩
      rw [record_create_of_ne (Nat.ne_of_lt hr'), state_job_create,
        if_neg (Nat.ne_of_lt (Nat.lt_succ_of_lt hlt)), if_neg (Nat.ne_of_lt hlt)]
      exact hstate
    · refine ⟨s'.records.size, hsize, by rw [hnew]; exact Nat.lt_succ_self _, ?_⟩
      rw [record_create, if_pos rfl, state_job_create]
      rcases Nat.lt_or_eq_of_le hge with hlt | rfl
      · obtain rfl : j = s'.jobs.size + 1 :=
          Nat.le_antisymm (Nat.le_of_lt_succ hj') (Nat.succ_le_of_lt hlt)
        exact .inr ⟨rfl, if_pos rfl⟩
      · refine .inl ⟨rfl, ?_⟩
        rw [if_neg (Nat.ne_of_lt (Nat.lt_succ_self _)), if_pos rfl]

end Creates

/-- The dependencies of a module are registered when they have been resolved. -/
theorem registered_of_resolveDependencies {specifiers : List (String × Option SetterId)}
    {dependencies : List Dependency}
    (h : Machine.resolveDependencies url s specifiers = (s', .ok dependencies)) :
    ∀ d ∈ dependencies, ∃ e ∈ s'.registry, e.2 = d.module := by
  induction specifiers generalizing s s' dependencies with
  | nil =>
    rw [Machine.resolveDependencies] at h
    cases h
    exact nofun
  | cons specifier rest ih =>
    rw [Machine.resolveDependencies] at h
    split at h
    · exact nomatch h
    · rename_i target _
      rcases hr : Machine.resolveDependencies url (s.getOrCreate target (some url)).1 rest with
        ⟨s₂, others⟩
      simp only [hr] at h
      cases others with
      | error error => exact nomatch h
      | ok others =>
        cases h
        intro d hd
        rcases List.mem_cons.mp hd with rfl | hd
        · obtain ⟨e, he, same⟩ := registered_getOrCreate s target (some url)
          exact ⟨e, (creates_resolveDependencies hr).registry_subset he, same⟩
        · exact ih hr d hd

/-- Resolving dependencies leaves their setters as they are. -/
theorem setters_of_resolveDependencies {specifiers : List (String × Option SetterId)}
    {dependencies : List Dependency}
    (h : Machine.resolveDependencies url s specifiers = (s', .ok dependencies)) :
    dependencies.map Dependency.setter = specifiers.map Prod.snd := by
  induction specifiers generalizing s s' dependencies with
  | nil =>
    rw [Machine.resolveDependencies] at h
    cases h
    rfl
  | cons specifier rest ih =>
    rw [Machine.resolveDependencies] at h
    split at h
    · exact nomatch h
    · rename_i target _
      rcases hr : Machine.resolveDependencies url (s.getOrCreate target (some url)).1 rest with
        ⟨s₂, others⟩
      simp only [hr] at h
      cases others with
      | error error => exact nomatch h
      | ok others =>
        cases h
        simp [ih hr]

/-- Dependencies cannot be resolved because one of their specifiers cannot. -/
theorem error_of_resolveDependencies {specifiers : List (String × Option SetterId)}
    {error : LoaderError} (h : Machine.resolveDependencies url s specifiers = (s', .error error)) :
    ∃ specifier reason, error = .resolution specifier (some url) reason := by
  induction specifiers generalizing s s' with
  | nil =>
    rw [Machine.resolveDependencies] at h
    exact nomatch h
  | cons specifier rest ih =>
    rw [Machine.resolveDependencies] at h
    split at h
    · rename_i failed
      cases h
      rw [resolve] at failed
      cases target : s.resolver.resolve specifier.1 ((some url).or s.base) with
      | error reason =>
        rw [target] at failed
        exact ⟨_, reason, (Except.error.inj failed).symm⟩
      | ok _ =>
        rw [target] at failed
        exact nomatch failed
    · rename_i target _
      rcases hr : Machine.resolveDependencies url (s.getOrCreate target (some url)).1 rest with
        ⟨s₂, others⟩
      simp only [hr] at h
      cases others with
      | error error =>
        cases h
        exact ih hr
      | ok others => exact nomatch h

/-! ### Imports -/

/-- The store with the job of an import of a module. -/
def startImport (s : Store C) (r : RecordId) : Store C :=
  (s.newJob (.waiting (.linkGraph r (.start r) []))).1.update r fun x =>
    { x with topLevel := some s.jobs.size }

/-- The handle of an import is known from the record, or a job is made for it. -/
theorem importRecord_cases (s : Store C) (r : RecordId) :
    (∃ error, (s.record r).state = .failed error ∧
      Machine.importRecord s r = (s, .failed error)) ∨
    ((s.record r).state = .executed ∧ Machine.importRecord s r = (s, .executed r)) ∨
    (∃ job, (s.record r).topLevel = some job ∧ Machine.importRecord s r = (s, .waiting r job)) ∨
    ((s.record r).topLevel = none ∧ (s.record r).state ≠ .executed ∧
      (s.record r).state.error? = none ∧
      Machine.importRecord s r = (s.startImport r, .waiting r s.jobs.size)) := by
  unfold Machine.importRecord
  cases h : (s.record r).state with
  | failed error => simp only [h]; exact .inl ⟨error, rfl, rfl⟩
  | executed => simp only [h]; exact .inr (.inl ⟨trivial, trivial⟩)
  | _ =>
    simp only [h]
    cases h' : (s.record r).topLevel with
    | some job => exact .inr (.inr (.inl ⟨job, rfl, rfl⟩))
    | none => exact .inr (.inr (.inr ⟨rfl, by simp, rfl, rfl⟩))

@[simp] theorem startImport_same : (s.startImport r).records.size = s.records.size ∧
    (s.startImport r).jobs.size = s.jobs.size + 1 ∧ (s.startImport r).group = s.group ∧
    (s.startImport r).groups.size = s.groups.size ∧ (s.startImport r).registry = s.registry ∧
    (s.startImport r).retired = s.retired ∧ (s.startImport r).isAlive = s.isAlive ∧
    (s.startImport r).milestones = s.milestones := by
  simp [startImport]

theorem state_job_startImport : ((s.startImport r).job j).state =
    if j = s.jobs.size then .waiting (.linkGraph r (.start r) []) else (s.job j).state := by
  simp [startImport, state_job_newJob]

/-- Starting an import changes none of these. -/
@[simp] theorem importRecord_same : (Machine.importRecord s r).1.records.size = s.records.size ∧
    (Machine.importRecord s r).1.group = s.group ∧
    (Machine.importRecord s r).1.groups.size = s.groups.size ∧
    (Machine.importRecord s r).1.registry = s.registry ∧
    (Machine.importRecord s r).1.retired = s.retired ∧
    (Machine.importRecord s r).1.isAlive = s.isAlive ∧
    (Machine.importRecord s r).1.milestones = s.milestones := by
  rcases importRecord_cases s r with ⟨_, _, h⟩ | ⟨_, h⟩ | ⟨_, _, h⟩ | ⟨_, _, _, h⟩ <;> simp [h]

theorem url_importRecord {r' : RecordId} :
    ((Machine.importRecord s r).1.record r').url = (s.record r').url := by
  rcases importRecord_cases s r with ⟨_, _, h⟩ | ⟨_, h⟩ | ⟨_, _, h⟩ | ⟨_, _, _, h⟩ <;>
    simp [h, startImport]

theorem record_startImport_self (h : r < s.records.size) :
    (s.startImport r).record r = { s.record r with topLevel := some s.jobs.size } := by
  rw [startImport, record_update_self (by simpa using h), newJob_same.1]

theorem record_startImport_of_ne (h : r' ≠ r) :
    (s.startImport r).record r' = s.record r' := by
  rw [startImport, record_update_of_ne h, newJob_same.1]

/-- Starting an import changes no job that exists. -/
theorem state_job_importRecord (hj : j < s.jobs.size) :
    ((Machine.importRecord s r).1.job j).state = (s.job j).state := by
  rcases importRecord_cases s r with ⟨_, _, h⟩ | ⟨_, h⟩ | ⟨_, _, h⟩ | ⟨_, _, _, h⟩
  · rw [h]
  · rw [h]
  · rw [h]
  · rw [h, state_job_startImport, if_neg (Nat.ne_of_lt hj)]

/-! ### Changes that bring no module any further -/

/-- Between two stores only such things have changed as bring no module any further. -/
structure Idle (s s' : Store C) : Prop where
  record : ∀ r, (s.record r).SameProgress (s'.record r)
  size_records : s'.records.size = s.records.size
  job : s'.job = s.job
  size_jobs : s'.jobs.size = s.jobs.size
  group : s'.group = s.group
  size_groups : s'.groups.size = s.groups.size
  registry : s'.registry = s.registry
  retired : s'.retired = s.retired
  isAlive : s'.isAlive = s.isAlive
  milestones : s'.milestones = s.milestones

theorem Idle.refl (s : Store C) : Idle s s :=
  ⟨fun _ => .refl _, rfl, rfl, rfl, rfl, rfl, rfl, rfl, rfl, rfl⟩

theorem Idle.trans {s₁ s₂ s₃ : Store C} (h : Idle s₁ s₂) (h' : Idle s₂ s₃) : Idle s₁ s₃ where
  record r := (h.record r).trans (h'.record r)
  size_records := h'.size_records.trans h.size_records
  job := h'.job.trans h.job
  size_jobs := h'.size_jobs.trans h.size_jobs
  group := h'.group.trans h.group
  size_groups := h'.size_groups.trans h.size_groups
  registry := h'.registry.trans h.registry
  retired := h'.retired.trans h.retired
  isAlive := h'.isAlive.trans h.isAlive
  milestones := h'.milestones.trans h.milestones

theorem idle_update {f : Record C → Record C} (h : ∀ x : Record C, x.SameProgress (f x)) :
    Idle s (s.update r f) :=
  ⟨fun _ => sameProgress_update h, size_records_update, rfl, rfl, rfl, rfl, rfl, rfl, rfl, rfl⟩

/-- What is idle for every element of a list is idle for the list. -/
theorem idle_foldl {α : Type} {f : Store C → α → Store C} (h : ∀ s x, Idle s (f s x))
    (xs : List α) (s : Store C) : Idle s (xs.foldl f s) := by
  induction xs generalizing s with
  | nil => exact .refl s
  | cons x xs ih => exact (h s x).trans (ih (f s x))

theorem idle_listen (s : Store C) (dependency : Dependency) : Idle s (s.listen dependency) := by
  unfold listen
  split
  · exact .refl s
  · exact idle_update fun x => ⟨rfl, rfl, rfl, rfl, rfl, rfl, rfl, rfl⟩

/-! ### Deleting and defining -/

theorem delete_of_lookup_none (h : s.lookup url = none) : s.delete url = (s, false) := by
  simp [delete, h]

/-- The store in which the setters of a module do not listen to its dependencies any more. -/
def unlisten (s : Store C) (dependency : RecordId × Option SetterId) : Store C :=
  match dependency.2 with
  | none => s
  | some setter => s.update dependency.1 fun d =>
      { d with importerSetters := d.importerSetters.filter fun x => x ≠ setter }

theorem idle_unlisten (s : Store C) (dependency : RecordId × Option SetterId) :
    Idle s (s.unlisten dependency) := by
  unfold unlisten
  split
  · exact .refl s
  · exact idle_update fun x => ⟨rfl, rfl, rfl, rfl, rfl, rfl, rfl, rfl⟩

/-- The store in which the setters of a module do not listen to anything any more. -/
def silence (s : Store C) (r : RecordId) : Store C :=
  ((s.record r).dependencies.zip (s.record r).dependencySetters).foldl unlisten
    (s.update r fun x => { x with dependencySetters := [] })

theorem idle_silence (s : Store C) (r : RecordId) : Idle s (s.silence r) := by
  have taken : Idle s (s.update r fun x => { x with dependencySetters := [] }) :=
    idle_update fun x => ⟨rfl, rfl, rfl, rfl, rfl, rfl, rfl, rfl⟩
  exact taken.trans (idle_foldl idle_unlisten _ _)

/-- The store without a URL in its registry. -/
def unregister (s : Store C) (url : Url) : Store C :=
  { s with registry := s.registry.filter fun (other, _) => other ≠ url.href }

@[simp] theorem unregister_same : (s.unregister url).record = s.record ∧
    (s.unregister url).records.size = s.records.size ∧ (s.unregister url).job = s.job ∧
    (s.unregister url).jobs.size = s.jobs.size ∧ (s.unregister url).group = s.group ∧
    (s.unregister url).groups.size = s.groups.size ∧ (s.unregister url).retired = s.retired ∧
    (s.unregister url).isAlive = s.isAlive ∧ (s.unregister url).milestones = s.milestones :=
  ⟨rfl, rfl, rfl, rfl, rfl, rfl, rfl, rfl, rfl⟩

/-- Deleting a module takes it out of the registry and brings no module any further. -/
theorem delete_of_lookup (h : s.lookup url = some r) :
    s.delete url = (((s.unregister url).silence r).note (.deleted r), true) := by
  simp only [delete, h]
  rfl

/-- Deleting a module brings none any further. -/
theorem record_delete (s : Store C) (url : Url) (r : RecordId) :
    (s.record r).SameProgress ((s.delete url).1.record r) := by
  cases h : s.lookup url with
  | none =>
    rw [delete_of_lookup_none h]
    exact .refl _
  | some module =>
    rw [delete_of_lookup h]
    exact (idle_silence (s.unregister url) module).record r

@[simp] theorem delete_same : (s.delete url).1.records.size = s.records.size ∧
    (s.delete url).1.job = s.job ∧ (s.delete url).1.jobs.size = s.jobs.size ∧
    (s.delete url).1.group = s.group ∧ (s.delete url).1.groups.size = s.groups.size ∧
    (s.delete url).1.retired = s.retired ∧ (s.delete url).1.isAlive = s.isAlive := by
  cases h : s.lookup url with
  | none => simp [delete_of_lookup_none h]
  | some module =>
    have idle := idle_silence (s.unregister url) module
    simp [delete_of_lookup h, idle.size_records, idle.job, idle.size_jobs, idle.group,
      idle.size_groups, idle.retired, idle.isAlive]

theorem milestones_delete (h : s.lookup url = some r) :
    (s.delete url).1.milestones = .deleted r :: s.milestones := by
  simp [delete_of_lookup h, Event.isMilestone, (idle_silence _ _).milestones]

theorem count_milestones_delete {e : Event} (he : ∀ r, e ≠ .deleted r) :
    (s.delete url).1.milestones.count e = s.milestones.count e := by
  cases h : s.lookup url with
  | none => rw [delete_of_lookup_none h]
  | some module => rw [milestones_delete h, List.count_cons_of_ne (he module).symm]

theorem milestones_delete_suffix (s : Store C) (url : Url) :
    s.milestones <:+ (s.delete url).1.milestones := by
  cases h : s.lookup url with
  | none => exact (delete_of_lookup_none h).symm ▸ List.suffix_refl _
  | some module => exact milestones_delete h ▸ List.suffix_cons _ _

theorem mem_registry_delete {e : String × RecordId} (h : e ∈ (s.delete url).1.registry) :
    e ∈ s.registry := by
  cases hl : s.lookup url with
  | none => rwa [delete_of_lookup_none hl] at h
  | some module =>
    rw [delete_of_lookup hl, note_same.2.2.2.2.2.2.1, (idle_silence _ _).registry] at h
    exact (List.mem_filter.mp h).1

theorem define_eq (s : Store C) (url : Url) (entries : List (String × Value)) :
    ∃ bindings, s.define url entries = ((s.delete url).1.newJob (.finished (.ok ()))).1.register
      { url, firstReferrer := none, bindings, state := .executed, hasExported := true
        instantiation := (s.delete url).1.jobs.size, linking := (s.delete url).1.jobs.size } :=
  ⟨_, rfl⟩

@[simp] theorem define_same : (s.define url entries).1.records.size = s.records.size + 1 ∧
    (s.define url entries).1.jobs.size = s.jobs.size + 1 ∧
    (s.define url entries).1.group = s.group ∧
    (s.define url entries).1.groups.size = s.groups.size ∧
    (s.define url entries).1.retired = s.retired ∧
    (s.define url entries).1.isAlive = s.isAlive ∧
    (s.define url entries).1.milestones =
      .registered s.records.size :: (s.delete url).1.milestones := by
  obtain ⟨bindings, h⟩ := define_eq s url entries
  simp [h]

@[simp] theorem snd_define : (s.define url entries).2 = s.records.size := by
  obtain ⟨bindings, h⟩ := define_eq s url entries
  simp [h]

theorem registry_define : (s.define url entries).1.registry =
    (s.delete url).1.registry ++ [(url.href, s.records.size)] := by
  obtain ⟨bindings, h⟩ := define_eq s url entries
  simp [h]

theorem record_define_of_lt (h : r < s.records.size) :
    (s.record r).SameProgress ((s.define url entries).1.record r) := by
  obtain ⟨bindings, hd⟩ := define_eq s url entries
  rw [hd, record_register, if_neg (Nat.ne_of_lt (by simpa using h)), newJob_same.1]
  exact record_delete s url r

/-- The record that is defined has the exports that it is defined with. -/
theorem record_define : (s.define url entries).1.record s.records.size =
    { url, firstReferrer := none, bindings := (Bindings.writeAll false entries []).1
      state := .executed, hasExported := true
      instantiation := s.jobs.size, linking := s.jobs.size } := by
  have defined : s.define url entries = ((s.delete url).1.newJob (.finished (.ok ()))).1.register
      { url, firstReferrer := none, bindings := (Bindings.writeAll false entries []).1
        state := .executed, hasExported := true
        instantiation := (s.delete url).1.jobs.size, linking := (s.delete url).1.jobs.size } := rfl
  rw [defined, record_register, if_pos (by simp)]
  simp

theorem record_define_new : ∃ bindings, (s.define url entries).1.record s.records.size =
    { url, firstReferrer := none, bindings, state := .executed, hasExported := true
      instantiation := s.jobs.size, linking := s.jobs.size } :=
  ⟨_, record_define⟩

theorem state_job_define : ((s.define url entries).1.job j).state =
    if j = s.jobs.size then .finished (.ok ()) else (s.job j).state := by
  obtain ⟨bindings, h⟩ := define_eq s url entries
  simp [h, state_job_newJob]

end Registering

end Store

end ModuleSystem.Loader
