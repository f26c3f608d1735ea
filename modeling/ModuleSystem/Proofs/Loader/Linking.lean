import Mathlib.Data.List.Forall2
import ModuleSystem.Proofs.Loader.Instantiating

/-!
# Linking modules at once

With a synchronous host a module is linked as soon as the job that does so is advanced: it is
instantiated, its specifiers are resolved, which makes records for those that are not registered, its
dependencies are instantiated in turn, and its setters are handed over. Whatever else is open stays
so, and what is new is open (`Store.Links`).

## Main definitions

* `Store.Resolved`, `Store.Attached` : a module has been linked to what its specifiers resolve to.
* `Store.Prepares`, `Store.Furthers`, `Store.Links` : what may happen while modules are linked.

## Main results

* `Machine.Synchronous.links` : to advance the job that links an open module ends the job well.
-/

namespace ModuleSystem.Loader

variable {C M : Type}

namespace Store

/-- The dependencies of a module are the modules that its specifiers resolve to, in their order. -/
def Resolved (s : Store C) (r : RecordId) : Prop :=
  List.Forall₂ (fun specifier d => ∃ target,
      s.resolve specifier (some (s.record r).url) = .ok target ∧ s.lookup target = some d)
    (s.record r).specifiers (s.record r).dependencies

/-- A module has been linked, and nothing has been done to execute it. -/
structure Attached (s : Store C) (r : RecordId) : Prop where
  known : r < s.records.size
  state : (s.record r).state = .linked
  idle : (s.record r).evaluation = none
  resolved : s.Resolved r

/-- Between two stores modules have been linked, and records made. Of the groups, the first `n` have
been left alone. -/
structure Prepares (n : Nat) (s s' : Store C) : Prop extends s.Grows s' where
  group : ∀ g < n, Woken (s.group g) (s'.group g)
  alike : ∀ r < s.records.size, (s.record r).state = .linked ∨ (s.record r).state = .executed →
    (s.record r).Alike (s'.record r)
  executed : ∀ r, (s'.record r).state = .executed → (s.record r).state = .executed

/-- A job that links a module has gone on, and nothing else has happened. -/
structure Handles (r : RecordId) (j : JobId) (s s' : Store C) : Prop extends s.Steady s' where
  record : ∀ i ≠ r, s'.record i = s.record i
  identity : (s.record r).SameIdentity (s'.record r)
  job : ∀ i ≠ j, (s'.job i).state = (s.job i).state
  group : ∀ g, Woken (s.group g) (s'.group g)

/-- The store in which the setters of a module have been taken to be handed over. -/
def release (s : Store C) (r : RecordId) : Store C :=
  s.update r fun x => { x with pendingSetters := [] }

/-- A job links a module next, or the graph below it, or is being advanced. -/
inductive IsLinking (s : Store C) (r : RecordId) (j : JobId) : Prop
  | link (waits : (s.job j).state = .waiting (.link r))
  | graph {node seen} (waits : (s.job j).state = .waiting (.linkGraph r node seen))
  | running (running : (s.job j).state = .running)

section Prepares

variable {s s' s₁ s₂ s₃ : Store C} {n : Nat} {r i : RecordId} {j : JobId}

theorem Prepares.refl (s : Store C) : Prepares n s s :=
  ⟨.refl s, fun _ _ => .refl _, fun _ _ _ => .refl _, fun _ => id⟩

theorem Prepares.trans (h : Prepares n s₁ s₂) (h' : Prepares n s₂ s₃) : Prepares n s₁ s₃ where
  toGrows := h.toGrows.trans h'.toGrows
  group g hg := (h.group g hg).trans (h'.group g hg)
  alike r hr state := by
    have alike := h.alike r hr state
    exact alike.trans (h'.alike r (Nat.lt_of_lt_of_le hr h.size_records) (alike.state ▸ state))
  executed r state := h.executed r (h'.executed r state)

theorem Prepares.mono {k : Nat} (h : Prepares n s s') (le : k ≤ n) : Prepares k s s' :=
  ⟨h.toGrows, fun g hg => h.group g (Nat.lt_of_lt_of_le hg le), h.alike, h.executed⟩

theorem Provides.prepares (h : Provides n s s') : Prepares n s s' where
  toGrows := h.toGrows
  group := h.group
  alike r hr state := h.alike hr fun unlinked => by
    rw [unlinked] at state
    rcases state with state | state <;> cases state
  executed r executed := by
    rcases Nat.lt_or_ge r s.records.size with known | unknown
    · rcases h.record r known with ⟨alike, _⟩ | ⟨_, adopted, _⟩
      · exact alike.state.symm.trans executed
      · exact nomatch adopted.state.symm.trans executed
    · have known : r < s'.records.size := Nat.lt_of_not_le fun hle => by
        rw [record_of_size_le hle] at executed
        cases executed
      rcases (h.new r unknown known).stage with fresh | adopted
      · exact nomatch fresh.state.symm.trans executed
      · exact nomatch adopted.state.symm.trans executed

/-- What has been linked stays so. -/
theorem Prepares.attached (h : Prepares n s s') (attached : s.Attached r) : s'.Attached r := by
  have alike := h.alike r attached.known (.inl attached.state)
  refine ⟨Nat.lt_of_lt_of_le attached.known h.size_records, alike.state.trans attached.state,
    alike.evaluation.trans attached.idle, ?_⟩
  rw [Resolved, alike.specifiers, alike.dependencies, alike.url, h.resolve]
  exact attached.resolved.imp fun specifier d ⟨target, resolves, found⟩ =>
    ⟨target, resolves, h.lookup target d found⟩

theorem Prepares.dependencies_eq (h : Prepares n s s') (attached : s.Attached r) :
    (s'.record r).dependencies = (s.record r).dependencies :=
  (h.alike r attached.known (.inl attached.state)).dependencies

theorem Handles.prepares (h : Handles r j s s') (same : (s.record r).state = .linked ∨
    (s.record r).state = .executed → (s.record r).Alike (s'.record r))
    (executed : (s'.record r).state = .executed → (s.record r).state = .executed) :
    Prepares n s s' := by
  refine ⟨h.grows, fun g _ => h.group g, fun i _ state => ?_, fun i => ?_⟩ <;> by_cases eq : i = r
  · exact eq ▸ same (eq ▸ state)
  · exact h.record i eq ▸ .refl _
  · exact eq ▸ executed
  · rw [h.record i eq]
    exact id

end Prepares

section Handles

variable {s s' : Store C} {r i : RecordId} {j : JobId} {l : Listener} {outcome : Outcome}

theorem handles_take : Handles r j s (s.take j l) where
  toSteady := steady_take
  record i _ := by rw [take_same.1]
  identity := by
    rw [take_same.1]
    exact (Record.Alike.refl _).sameIdentity
  group g := take_same.2.2.1 ▸ .refl _
  job i ne := by rw [state_job_take, if_neg fun h => ne h.1]

theorem handles_finish : Handles r j s (s.finish j outcome) where
  toSteady := steady_finish
  record i _ := by rw [finish_same.1]
  identity := by
    rw [finish_same.1]
    exact (Record.Alike.refl _).sameIdentity
  group g := woken_finish s j outcome g
  job i ne := by rw [state_job_finish, if_neg fun h => ne h.1]

theorem handles_update {f : Record C → Record C}
    (same : (s.record r).SameIdentity (f (s.record r))) (known : r < s.records.size) :
    Handles r j s (s.update r f) where
  toSteady := steady_update
  record i ne := record_update_of_ne ne
  identity := by rwa [record_update_self known]
  group _ := .refl _
  job _ _ := rfl

theorem handles_attach {dependencies : List Dependency} (known : r < s.records.size) :
    Handles r j s (s.attach r dependencies) where
  toSteady := steady_attach
  record i ne := record_attach_of_ne ne
  identity := by
    rw [record_attach_self known]
    exact ⟨Record.enter_same.1, Record.enter_same.2.2.1, Record.enter_same.2.2.2.1,
      Record.enter_same.2.2.2.2.1⟩
  group g := attach_same.2.2.1 ▸ .refl _
  job i _ := by rw [attach_same.1]

theorem Handles.fresh (h : Handles r j s s') (own : s.IsLinking r j)
    (same : s'.record i = s.record i) (fresh : s.Fresh i) : s'.Fresh i := by
  refine ⟨h.size_records ▸ fresh.known, by rw [same, fresh.state], ?_⟩
  rw [same, h.job, fresh.instantiation]
  rintro rfl
  cases own with
  | link own | graph own | running own => exact nomatch own.symm.trans fresh.instantiation

theorem Handles.isInstantiated (h : Handles r j s s') (own : s.IsLinking r j)
    (done : s.IsInstantiated i) : s'.IsInstantiated i := by
  have same : (s'.record i).instantiation = (s.record i).instantiation := by
    by_cases ne : i = r
    · rw [ne, h.identity.instantiation]
    · rw [h.record i ne]
  refine ⟨h.size_records ▸ done.known, by rw [same, h.size_jobs]; exact done.bound, ?_⟩
  rw [same, h.job, done.instantiation]
  rintro rfl
  cases own with
  | link own | graph own | running own => exact nomatch own.symm.trans done.instantiation

theorem Handles.adopted (h : Handles r j s s') (own : s.IsLinking r j)
    (same : s'.record i = s.record i) (adopted : s.Adopted i) : s'.Adopted i where
  toIsInstantiated := h.isInstantiated own adopted.toIsInstantiated
  state := by rw [same, adopted.state]
  paired := by rw [same, adopted.paired]
  resolves := by
    rw [same, h.resolve]
    exact adopted.resolves

/-- The job of one module does not link another one. -/
theorem IsLinking.apart (own : s.IsLinking r j) (ne : i ≠ r) :
    (s.job j).state ≠ .waiting (.link i) := by
  intro waits
  cases own with
  | link own =>
    cases own.symm.trans waits
    exact ne rfl
  | graph own | running own => exact nomatch own.symm.trans waits

/-- Modules that have not been linked, and are not linked by the job, are left alone. -/
theorem Handles.isOpen (h : Handles r j s s') (own : s.IsLinking r j)
    (same : s'.record i = s.record i) (apart : (s.job j).state ≠ .waiting (.link i))
    (isOpen : s.IsOpen i) : s'.IsOpen i := by
  refine ⟨isOpen.stage.imp (h.fresh own same) (h.adopted own same), ?_, by rw [same, isOpen.idle]⟩
  rw [same, h.job, isOpen.linking]
  rintro rfl
  exact apart isOpen.linking

theorem Handles.tidy (h : Handles r j s s') (own : s.IsLinking r j)
    (stage : s'.Fresh r ∨ s'.IsInstantiated r) (tidy : s.Tidy) : s'.Tidy where
  retired := by
    rw [h.retired, h.size_records]
    exact tidy.retired
  loadable e he := by
    obtain ⟨alive, idle, began⟩ := tidy.loadable e (h.registry ▸ he)
    refine ⟨by rw [h.isAlive, alive], ?_, ?_⟩ <;> by_cases ne : e.2 = r
    · rw [ne, h.identity.evaluation, ← ne, idle]
    · rw [h.record e.2 ne, idle]
    · rwa [ne]
    · exact began.imp (h.fresh own (h.record e.2 ne)) (h.isInstantiated own)

end Handles

section Resolving

variable {s : Store C} {r : RecordId} {url : Url} {referrer : Option Url}

theorem mem_of_lookup (h : s.lookup url = some r) : (url.href, r) ∈ s.registry := by
  obtain ⟨l₁, l₂, h, _⟩ := List.lookup_eq_some_iff.mp h
  rw [h]
  exact List.mem_append_right _ List.mem_cons_self

theorem Tidy.of_lookup (tidy : s.Tidy) (h : s.lookup url = some r) : s.Loadable r :=
  tidy.loadable _ (mem_of_lookup h)

/-- What one list is related to is found in the other. -/
theorem exists_of_forall₂ {α β : Type} {rel : α → β → Prop} {l : List α} {l' : List β}
    (h : List.Forall₂ rel l l') {b : β} (hb : b ∈ l') : ∃ a ∈ l, rel a b := by
  induction h with
  | nil => cases hb
  | cons first _ ih =>
    rcases List.mem_cons.mp hb with rfl | hb
    · exact ⟨_, List.mem_cons_self, first⟩
    · obtain ⟨a, ha, related⟩ := ih hb
      exact ⟨a, List.mem_cons_of_mem _ ha, related⟩

/-- Specifiers that have URLs resolve to modules that are registered. -/
theorem exists_resolveDependencies {specifiers : List (String × Option SetterId)}
    (resolves : ∀ p ∈ specifiers, (s.resolve p.1 (some url)).isOk) :
    ∃ s' dependencies, Machine.resolveDependencies url s specifiers = (s', .ok dependencies) ∧
      List.Forall₂ (fun p d => ∃ target, s.resolve p.1 (some url) = .ok target ∧
        s'.lookup target = some d.module) specifiers dependencies := by
  induction specifiers generalizing s with
  | nil => exact ⟨s, [], rfl, .nil⟩
  | cons p rest ih =>
    obtain ⟨first, others⟩ := List.forall_mem_cons.mp resolves
    cases hp : s.resolve p.1 (some url) with
    | error error =>
      rw [hp] at first
      cases first
    | ok target =>
      have grows := (creates_getOrCreate s target (some url)).grows
      obtain ⟨s', dependencies, eq, listed⟩ := ih (s := (s.getOrCreate target (some url)).1)
        (by rwa [grows.resolve])
      rw [grows.resolve] at listed
      refine ⟨s', { module := (s.getOrCreate target (some url)).2, setter := p.2 } :: dependencies,
        ?_, .cons ⟨target, hp, ?_⟩ listed⟩
      · simp only [Machine.resolveDependencies, hp, eq]
        rfl
      · exact (creates_resolveDependencies eq).grows.lookup _ _ lookup_getOrCreate

end Resolving

/-- Between two stores a module may have come further. The others are no less open than before, and
those that are new are open. -/
structure Furthers (n : Nat) (r : RecordId) (s s' : Store C) : Prop extends s.Prepares n s' where
  tidy : s.Tidy → s'.Tidy
  others : ∀ i ≠ r, s.IsOpen i → s'.IsOpen i
  new : ∀ e ∈ s'.registry, e ∈ s.registry ∨ s.records.size ≤ e.2 ∧ (e.2 ≠ r → s'.IsOpen e.2)

/-- One module has been linked. The others are no less open than before, and those that are new are
open. -/
structure Links (n : Nat) (r : RecordId) (s s' : Store C) : Prop extends s.Prepares n s' where
  tidy : s'.Tidy
  attached : s'.Attached r
  others : ∀ i ≠ r, s.IsOpen i → s'.IsOpen i
  new : ∀ e ∈ s'.registry, e ∈ s.registry ∨ s'.IsOpen e.2

section Links

variable {s s' s₁ s₂ s₃ : Store C} {r : RecordId} {j : JobId} {l : Listener} {n : Nat}
  {dependencies : List Dependency}

theorem Furthers.trans (h : Furthers n r s₁ s₂) (h' : Furthers n r s₂ s₃) : Furthers n r s₁ s₃ where
  toPrepares := h.toPrepares.trans h'.toPrepares
  tidy := h'.tidy ∘ h.tidy
  others i ne isOpen := h'.others i ne (h.others i ne isOpen)
  new e he := by
    rcases h'.new e he with he | ⟨le, isOpen⟩
    · exact (h.new e he).imp_right fun ⟨le, isOpen⟩ =>
        ⟨le, fun ne => h'.others e.2 ne (isOpen ne)⟩
    · exact .inr ⟨Nat.le_trans h.size_records le, isOpen⟩

theorem Provides.furthers (h : Provides n s s') : Furthers n r s s' where
  toPrepares := h.prepares
  tidy := h.tidy
  others _ _ := h.isOpen
  new e he := (h.mem e he).imp_right fun ⟨le, lt⟩ => ⟨le, fun _ => h.new e.2 le lt⟩

theorem Handles.furthers (h : Handles r j s s') (own : s.IsLinking r j)
    (stage : s'.Fresh r ∨ s'.IsInstantiated r)
    (same : (s.record r).state = .linked ∨ (s.record r).state = .executed →
      (s.record r).Alike (s'.record r))
    (executed : (s'.record r).state = .executed → (s.record r).state = .executed) :
    Furthers n r s s' where
  toPrepares := h.prepares same executed
  tidy := h.tidy own stage
  others i ne := h.isOpen own (h.record i ne) (own.apart ne)
  new _ he := .inl (h.registry ▸ he)

theorem Furthers.links (h : Furthers n r s s') (tidy : s.Tidy) (known : r < s.records.size)
    (attached : s'.Attached r) : Links n r s s' where
  toPrepares := h.toPrepares
  tidy := h.tidy tidy
  attached := attached
  others := h.others
  new e he := (h.new e he).imp_right fun ⟨le, isOpen⟩ =>
    isOpen (Nat.ne_of_gt (Nat.lt_of_lt_of_le known le))

/-- A module whose dependencies have been resolved is linked to them. -/
theorem attached_attach (known : r < s.records.size)
    (state : (s.record r).state = .instantiating) (idle : (s.record r).evaluation = none)
    (listed : List.Forall₂ (fun specifier d => ∃ target,
        s.resolve specifier (some (s.record r).url) = .ok target ∧ s.lookup target = some d)
      (s.record r).specifiers (dependencies.map Dependency.module)) :
    (s.attach r dependencies).Attached r := by
  have attaches : Steady s (s.attach r dependencies) := steady_attach
  have record : (s.attach r dependencies).record r =
      { s.record r with
        dependencies := dependencies.map Dependency.module
        dependencySetters := dependencies.map Dependency.setter
        state := .linked } := by
    rw [record_attach_self known, Record.enter, state]
  refine ⟨attaches.size_records ▸ known, by rw [record], by rw [record]; exact idle, ?_⟩
  rw [Resolved, attaches.resolve, attaches.lookup, record]
  exact listed

theorem handles_release (known : r < s.records.size) : Handles r j s (s.release r) :=
  handles_update ⟨rfl, rfl, rfl, rfl⟩ known

theorem Provides.running (h : Provides n s s') (running : (s.job j).state = .running) :
    (s'.job j).state = .running := by
  rw [h.job j (lt_of_state (by simp [running])) (by simp [running]), running]

/-- The job that links an open module is being advanced until it ends. -/
theorem IsOpen.running (isOpen : s.IsOpen r) (hj : (s.record r).linking = j)
    (before : Provides n (s.take j l) s₂) : (s₂.job j).state = .running := by
  have bound : j < s.jobs.size := hj ▸ lt_of_waiting isOpen.linking
  exact before.running (by rw [state_job_take, if_pos ⟨rfl, bound⟩])

/-- While its dependencies are instantiated, a module stays as it is. -/
theorem Adopted.alike_of_release (adopted : s₂.Adopted r) (after : Provides n (s₂.release r) s₃) :
    Record.Alike { s₂.record r with pendingSetters := [] } (s₃.record r) := by
  have record : (s₂.release r).record r = { s₂.record r with pendingSetters := [] } :=
    record_update_self adopted.known
  rw [← record]
  refine after.alike ?_ (by rw [record]; simp [adopted.state])
  rw [release, size_records_update]
  exact adopted.known

/-- A module that has been instantiated, with its dependencies, is linked to them. -/
theorem Adopted.attached (adopted : s₂.Adopted r) (idle : (s₂.record r).evaluation = none)
    (after : Provides n (s₂.release r) s₃)
    (listed : List.Forall₂ (fun p d => ∃ target,
        s₂.resolve p.1 (some (s₂.record r).url) = .ok target ∧ s₃.lookup target = some d.module)
      ((s₂.record r).specifiers.zip (s₂.record r).pendingSetters) dependencies) :
    (s₃.attach r dependencies).Attached r := by
  have alike := adopted.alike_of_release after
  have resolve : s₃.resolve = s₂.resolve := after.resolve
  have url : (s₃.record r).url = (s₂.record r).url := alike.url
  have pairs : (s₃.record r).specifiers =
      ((s₂.record r).specifiers.zip (s₂.record r).pendingSetters).map Prod.fst := by
    rw [List.map_fst_zip (Nat.le_of_eq adopted.paired.symm), alike.specifiers]
  refine attached_attach ?_ (alike.state.trans adopted.state) (alike.evaluation.trans idle) ?_
  · refine Nat.lt_of_lt_of_le ?_ after.size_records
    rw [release, size_records_update]
    exact adopted.known
  · rwa [pairs, resolve, url, List.forall₂_map_left_iff, List.forall₂_map_right_iff]

/-- The job that links a module takes it from its instantiation to its end. -/
theorem Adopted.furthers (adopted : s₂.Adopted r) (running : (s₂.job j).state = .running)
    (after : Provides n (s₂.release r) s₃) (attached : (s₃.attach r dependencies).Attached r) :
    Furthers n r s₂ ((s₃.attach r dependencies).finish j (.ok ())) := by
  have begun : ∀ {state : ModuleState}, state = .instantiating →
      ¬ (state = .linked ∨ state = .executed) := by
    rintro _ rfl
    simp
  have forgets : Handles r j s₂ (s₂.release r) := handles_release adopted.known
  have running₃ : (s₃.job j).state = .running := after.running running
  have alike := adopted.alike_of_release after
  have known₃ : r < s₃.records.size :=
    Nat.lt_of_lt_of_le (forgets.size_records ▸ adopted.known) after.size_records
  have attaches : Handles r j s₃ (s₃.attach r dependencies) := handles_attach known₃
  have running₄ : ((s₃.attach r dependencies).job j).state = .running := by
    rw [attach_same.1, running₃]
  have finishes : Handles r j (s₃.attach r dependencies)
      ((s₃.attach r dependencies).finish j (.ok ())) := handles_finish
  have done := forgets.isInstantiated (.running running) adopted.toIsInstantiated
  have done₃ := attaches.isInstantiated (.running running₃) (after.isInstantiated done)
  have done₄ := finishes.isInstantiated (.running running₄) done₃
  have first := forgets.furthers (n := n) (.running running) (.inr done)
    (fun h => absurd h (begun adopted.state))
    (by rw [release, record_update_self adopted.known]; exact id)
  have second := attaches.furthers (n := n) (.running running₃) (.inr done₃)
    (fun h => absurd h (begun (alike.state.trans adopted.state)))
    (fun executed => nomatch attached.state.symm.trans executed)
  have third := finishes.furthers (n := n) (.running running₄) (.inr done₄)
    (fun _ => by rw [finish_same.1]; exact .refl _) (by rw [finish_same.1]; exact id)
  exact ((first.trans after.furthers).trans second).trans third

/-- An open module is instantiated, its dependencies are resolved and instantiated, and it is
linked. -/
theorem IsOpen.links (isOpen : s.IsOpen r) (tidy : s.Tidy) (hj : (s.record r).linking = j)
    (before : Provides n (s.take j l) s₂) (adopted : s₂.Adopted r)
    (after : Provides n (s₂.release r) s₃)
    (listed : List.Forall₂ (fun p d => ∃ target,
        s₂.resolve p.1 (some (s₂.record r).url) = .ok target ∧ s₃.lookup target = some d.module)
      ((s₂.record r).specifiers.zip (s₂.record r).pendingSetters) dependencies) :
    Links n r s ((s₃.attach r dependencies).finish j (.ok ())) := by
  have own : s.IsLinking r j := .link (hj ▸ isOpen.linking)
  have takes : Handles r j s (s.take j l) := handles_take
  have same : (s.take j l).record r = s.record r := by rw [take_same.1]
  have idle : (s₂.record r).evaluation = none := by
    have kept := (before.sameIdentity (takes.size_records ▸ isOpen.known)).evaluation
    rw [kept, same, isOpen.idle]
  have attached := adopted.attached idle after listed
  have begins := takes.furthers (n := n) own
    (isOpen.stage.imp (takes.fresh own same) fun done => takes.isInstantiated own done.toIsInstantiated)
    (fun _ => same ▸ .refl _) (by rw [same]; exact id)
  have ends : Prepares n (s₃.attach r dependencies)
      ((s₃.attach r dependencies).finish j (.ok ())) := by
    refine (handles_finish : Handles r j _ _).prepares (fun _ => ?_) ?_ <;> rw [finish_same.1]
    · exact .refl _
    · exact id
  exact ((begins.trans before.furthers).trans (adopted.furthers (isOpen.running hj before) after
    attached)).links tidy isOpen.known (ends.attached attached)

end Links

end Store

namespace Machine

open Store

section Linking

variable {host : Host C M} {limit n : Nat} {s : Store C} {memory : M} {st : List (Frame C)}
  {c : Control C} {r : RecordId} {j : JobId} {g : GroupId} {dependencies : List Dependency}

/-- The setters of a module are handed over, and it is linked. -/
private theorem Synchronous.handsOver {rest : List Dependency}
    (sync : Synchronous host limit (handOver ⟨s, memory, st, c⟩ r dependencies rest)) :
    ∃ s' memory', RunsTo host (handOver ⟨s, memory, st, c⟩ r dependencies rest)
        ⟨s'.attach r dependencies, memory', st, .ended (.ok ())⟩ ∧ Untouched s s' := by
  induction rest generalizing s memory c with
  | nil => exact ⟨s, memory, .refl, .refl s⟩
  | cons dependency rest ih =>
    cases set : dependency.setter with
    | none =>
      rw [handOver_cons_none _ set] at sync ⊢
      exact ih sync
    | some setter =>
      have listens : Untouched s (s.listen dependency) := by
        rw [Store.listen, set]
        exact untouched_update ⟨⟨rfl, rfl, rfl, rfl, rfl, rfl, rfl, rfl⟩, rfl, rfl, rfl⟩
      rw [handOver_cons_some _ set] at sync ⊢
      split_ifs at sync ⊢ with sees
      · obtain ⟨s₁, st', c', eq, way⟩ := propagate_propagates
          ((⟨s.listen dependency, memory, st, c⟩ : Machine C M).push
            (.handingOver r dependencies rest) .drained) [setter] dependency.module
        rw [eq] at sync ⊢
        have resumes : ∀ s memory, step host
            ⟨s, memory, .handingOver r dependencies rest :: st, .drained⟩ =
              handOver ⟨s, memory, st, .drained⟩ r dependencies rest := fun _ _ => rfl
        obtain ⟨s₂, memory₂, delivers, same⟩ : ∃ s₂ memory₂, RunsTo host ⟨s₁, memory, st', c'⟩
            ⟨s₂, memory₂, .handingOver r dependencies rest :: st, .drained⟩ ∧
              Untouched (s.listen dependency) s₂ := by
          cases way with
          | queued => exact ⟨_, _, .refl, untouched_raise⟩
          | delivered =>
            obtain ⟨s₂, memory₂, runs, same⟩ := sync.ends_delivery
            exact ⟨s₂, memory₂, runs, (untouched_raise.trans untouched_setQueue).trans same⟩
        have goesOn := delivers.trans (.of_step (resumes s₂ memory₂) (by simp))
        obtain ⟨s', memory', runs, same'⟩ := ih (sync.of_runsTo goesOn)
        exact ⟨s', memory', goesOn.trans runs, (listens.trans same).trans same'⟩
      · obtain ⟨s', memory', runs, same⟩ := ih sync
        exact ⟨s', memory', runs, listens.trans same⟩

/-- The dependencies of a module are instantiated, one after the other. -/
private theorem Synchronous.joins
    (sync : Synchronous host limit (joinDependencies ⟨s, memory, st, c⟩ r dependencies g))
    (tidy : s.Tidy) (alive : s.isAlive r = true) (bound : g < s.groups.size)
    (going : (s.group g).IsGoing) (size : dependencies.length = (s.group g).size)
    (registered : ∀ d ∈ dependencies, ∃ url, s.lookup url = some d.module) :
    ∃ s' memory' c', RunsTo host (joinDependencies ⟨s, memory, st, c⟩ r dependencies g)
        (handOver ⟨s', memory', st, c'⟩ r dependencies dependencies) ∧ Provides g s s' := by
  induction hk : (s.group g).left.length using Nat.strongRecOn generalizing s memory c with
  | ind k next =>
  rcases going.next?_cases dependencies size with ⟨none, left⟩ |
      ⟨d, i, due, found, first, member, left⟩
  · have ends : joinDependencies ⟨s, memory, st, c⟩ r dependencies g =
        handOver ⟨s, memory, st, c⟩ r dependencies dependencies := by
      simp [joinDependencies, none, Group.isOver, left, alive, going.failure?]
    exact ⟨s, memory, c, ends ▸ .refl, .refl s⟩
  · have polls : joinDependencies ⟨s, memory, st, c⟩ r dependencies g =
        ⟨s.setGroup g { s.group g with due, current := i, isStirred := false }, memory,
          .joining r dependencies g i :: st, .poll (s.record d.module).instantiation⟩ := by
      simp [joinDependencies, found, push, mapStore]
    rw [polls] at sync ⊢
    have advanced : Provides g s
        (s.setGroup g { s.group g with due, current := i, isStirred := false }) :=
      provides_setGroup (Nat.le_refl g)
    obtain ⟨url, known⟩ := registered d (List.mem_of_getElem? member)
    obtain ⟨s₁, memory₁, runs, provides, _⟩ := sync.instantiates (n := g + 1) (r := d.module)
      (advanced.loadable (tidy.of_lookup known))
    have settles : ∃ l, step host ⟨s₁, memory₁, .joining r dependencies g i :: st,
          .polled (some (.ok ()))⟩ =
        joinDependencies ⟨s₁.setGroup g ((s₁.group g).memberEnded i none l), memory₁, st,
          .polled (some (.ok ()))⟩ r dependencies g := ⟨_, rfl⟩
    obtain ⟨l, settles⟩ := settles
    have goesOn := runs.trans (.of_step settles (by simp))
    have before : Provides g s s₁ := advanced.trans (provides.mono (Nat.le_succ g))
    have ended : Provides g s (s₁.setGroup g ((s₁.group g).memberEnded i none l)) :=
      before.trans (provides_setGroup (Nat.le_refl g))
    have bound₁ : g < s₁.groups.size := Nat.lt_of_lt_of_le bound before.size_groups
    have woken := provides.group g (Nat.lt_succ_self g)
    rw [group_setGroup, if_pos ⟨rfl, bound⟩] at woken
    have group : (s₁.setGroup g ((s₁.group g).memberEnded i none l)).group g =
        (s₁.group g).memberEnded i none l := by
      rw [group_setGroup, if_pos ⟨rfl, bound₁⟩]
    have fewer : ((s₁.group g).memberEnded i none l).left.length < k := by
      have left' : (s₁.group g).left = (s.group g).left := woken.left
      rw [← hk]
      simp only [Group.memberEnded, Group.renew, left', List.length_erase_of_mem left]
      exact Nat.sub_lt (List.length_pos_of_mem left) Nat.one_pos
    obtain ⟨s', memory', c', runs', rest⟩ := next _ fewer (sync.of_runsTo goesOn) (ended.tidy tidy)
      (by rw [ended.isAlive, alive]) (by simpa using bound₁)
      (by rw [group]; exact going.memberEnded first woken)
      (by rw [group]; exact size.trans woken.size.symm)
      (fun d hd => (registered d hd).imp fun url known => ended.lookup url _ known) (by rw [group])
    exact ⟨s', memory', c', goesOn.trans runs', ended.trans rest⟩

/-- When a module has been instantiated, its dependencies are resolved and instantiated and its
setters handed over. -/
private theorem Synchronous.resolves
    (sync : Synchronous host limit (linkInstantiated ⟨s, memory, st, c⟩ r))
    (tidy : (s.release r).Tidy) (adopted : s.Adopted r)
    (alive : s.isAlive r = true) (le : n ≤ s.groups.size) :
    ∃ s' memory' dependencies, RunsTo host (linkInstantiated ⟨s, memory, st, c⟩ r)
        ⟨s'.attach r dependencies, memory', st, .ended (.ok ())⟩ ∧
      Provides n (s.release r) s' ∧
      List.Forall₂ (fun p d => ∃ target, s.resolve p.1 (some (s.record r).url) = .ok target ∧
          s'.lookup target = some d.module)
        ((s.record r).specifiers.zip (s.record r).pendingSetters) dependencies := by
  have isOk : ∀ p ∈ (s.record r).specifiers.zip (s.record r).pendingSetters,
      ((s.release r).resolve p.1 (some (s.record r).url)).isOk := fun p hp =>
    adopted.resolves p.1 (List.of_mem_zip hp).1
  obtain ⟨s₁, dependencies, resolved, listed⟩ := exists_resolveDependencies isOk
  have creates := creates_resolveDependencies resolved
  have resolves : linkInstantiated ⟨s, memory, st, c⟩ r =
      ⟨(s₁.newGroup dependencies.length).1, memory, st,
        .work (.awaitDependencies r dependencies s₁.groups.size)⟩ := by
    rw [release] at resolved
    simp only [linkInstantiated, alive, adopted.state, ModuleState.error?, resolved]
    rfl
  have starts : ∃ l, step host ⟨(s₁.newGroup dependencies.length).1, memory, st,
        .work (.awaitDependencies r dependencies s₁.groups.size)⟩ =
      joinDependencies ⟨(s₁.newGroup dependencies.length).1.setGroup s₁.groups.size
          ((Group.ofSize dependencies.length).start l), memory, st,
        .work (.awaitDependencies r dependencies s₁.groups.size)⟩ r dependencies
          s₁.groups.size := by
    refine ⟨ear (s₁.newGroup dependencies.length).1 st, ?_⟩
    simp only [step, doWork, startGroup, mapStore, group_newGroup, ite_true]
    rfl
  obtain ⟨l, starts⟩ := starts
  have begins := resolves ▸ RunsTo.of_step starts (by simp)
  have size : s₁.groups.size < ((s₁.newGroup dependencies.length).1.setGroup s₁.groups.size
      ((Group.ofSize dependencies.length).start l)).groups.size := by
    simp
  have group : ((s₁.newGroup dependencies.length).1.setGroup s₁.groups.size
      ((Group.ofSize dependencies.length).start l)).group s₁.groups.size =
        (Group.ofSize dependencies.length).start l := by
    rw [group_setGroup, if_pos ⟨rfl, by simp⟩]
  have provides : Provides s₁.groups.size (s.release r)
      ((s₁.newGroup dependencies.length).1.setGroup s₁.groups.size
        ((Group.ofSize dependencies.length).start l)) :=
    (creates.provides.trans (provides_newGroup (Nat.le_refl _))).trans
      (provides_setGroup (Nat.le_refl _))
  have registered : ∀ d ∈ dependencies, ∃ url, s₁.lookup url = some d.module := by
    intro d hd
    obtain ⟨_, _, target, _, found⟩ := exists_of_forall₂ listed hd
    exact ⟨target, found⟩
  obtain ⟨s₂, memory₂, c₂, joined, provides'⟩ := (sync.of_runsTo begins).joins
    (provides.tidy tidy) (by rw [provides.isAlive]; exact alive) size (by rw [group]; exact Group.isGoing_start _ _)
    (by rw [group, Group.size_start]; rfl) registered
  obtain ⟨s₃, memory₃, handed, same⟩ := ((sync.of_runsTo begins).of_runsTo joined).handsOver
  have le' : n ≤ s₁.groups.size := Nat.le_trans le creates.grows.size_groups
  refine ⟨s₃, memory₃, dependencies, (begins.trans joined).trans handed,
    ((provides.trans provides').mono le').trans same.provides, listed.imp ?_⟩
  rintro p d ⟨target, resolves, found⟩
  exact ⟨target, resolves, (provides'.toGrows.trans same.grows).lookup _ _ found⟩

/-- To advance the job that links an open module ends the job well. -/
theorem Synchronous.links
    (sync : Synchronous host limit ⟨s, memory, st, .poll (s.record r).linking⟩)
    (tidy : s.Tidy) (isOpen : s.IsOpen r) (alive : s.isAlive r = true) (le : n ≤ s.groups.size) :
    ∃ s' memory', RunsTo host ⟨s, memory, st, .poll (s.record r).linking⟩
        ⟨s', memory', st, .polled (some (.ok ()))⟩ ∧ Links n r s s' := by
  obtain ⟨j, hj⟩ : ∃ j, (s.record r).linking = j := ⟨_, rfl⟩
  have waits : (s.job j).state = .waiting (.link r) := hj ▸ isOpen.linking
  rw [hj] at sync ⊢
  obtain ⟨l, polls⟩ : ∃ l, step host ⟨s, memory, st, .poll j⟩ =
      ⟨s.take j l, memory, .advancing j :: st, .work (.link r)⟩ :=
    ⟨_, by simp only [step, poll, waits]; rfl⟩
  have takes : Handles r j s (s.take j l) := handles_take
  have works : step host ⟨s.take j l, memory, .advancing j :: st, .work (.link r)⟩ =
      ⟨s.take j l, memory, .linking r :: .advancing j :: st,
        .poll ((s.take j l).record r).instantiation⟩ := rfl
  have begins := (RunsTo.of_step polls (by simp)).trans (.of_step works (by simp))
  have stage : (s.take j l).Fresh r ∨ (s.take j l).Adopted r := isOpen.stage.imp
    (takes.fresh (.link waits) (by rw [take_same.1])) (takes.adopted (.link waits) (by rw [take_same.1]))
  have tidy₁ := takes.tidy (.link waits) (stage.imp_right fun adopted => adopted.toIsInstantiated) tidy
  have loadable : (s.take j l).Loadable r :=
    ⟨by rw [takes.isAlive, alive], by rw [take_same.1, isOpen.idle],
      stage.imp_right fun adopted => adopted.toIsInstantiated⟩
  obtain ⟨s₂, memory₂, runs, provides, _, adopted⟩ :=
    (sync.of_runsTo begins).instantiates (n := n) loadable
  have adopted := adopted stage
  have tidy₂ : (s₂.release r).Tidy := by
    have own : s₂.IsLinking r j := .running (isOpen.running hj provides)
    have releases : Handles r j s₂ (s₂.release r) := handles_release adopted.known
    exact releases.tidy own (.inr (releases.isInstantiated own adopted.toIsInstantiated))
      (provides.tidy tidy₁)
  have goesOn : step host
      ⟨s₂, memory₂, .linking r :: .advancing j :: st, .polled (some (.ok ()))⟩ =
        linkInstantiated ⟨s₂, memory₂, .advancing j :: st, .polled (some (.ok ()))⟩ r := rfl
  have instantiated := (begins.trans runs).trans (.of_step goesOn (by simp))
  obtain ⟨s₃, memory₃, dependencies, attached, provides', listed⟩ :=
    (sync.of_runsTo instantiated).resolves (n := n) tidy₂ adopted
      (by rw [provides.isAlive, takes.isAlive, alive])
      (Nat.le_trans le (Nat.le_trans (Nat.le_of_eq takes.size_groups.symm) provides.size_groups))
  have ends : step host ⟨s₃.attach r dependencies, memory₃, .advancing j :: st, .ended (.ok ())⟩ =
      ⟨(s₃.attach r dependencies).finish j (.ok ()), memory₃, st, .polled (some (.ok ()))⟩ := rfl
  exact ⟨_, memory₃, (instantiated.trans attached).trans (.of_step ends (by simp)),
    isOpen.links tidy hj provides adopted provides' listed⟩

end Linking

end Machine

end ModuleSystem.Loader
