import ModuleSystem.Proofs.Loader.Registry
import ModuleSystem.Proofs.Loader.Rules

/-!
# Synchronous hosts

Host code may do nothing to a loader but export, and come to its end whenever it is run. Then a
machine that runs host code, or delivers notifications, leaves this behind after some steps, with
the modules and the jobs as they were before.

## Main definitions

* `Machine.RunsTo` : a machine that serves a request comes to another state.
* `Machine.Synchronous` : from some state on, host code only exports and always comes to its end.
* `Machine.isSynchronous` : this can be computed for a machine that comes to rest.
* `Store.Untouched` : modules, jobs and groups are as they were.

## Main results

* `Machine.Synchronous.ends_hook`, `Machine.Synchronous.ends_body` : hooks and bodies come to their
  end.
* `Machine.Synchronous.ends_delivery` : so does the delivery of notifications.
* `Machine.synchronous_of_isSynchronous` : what has been computed to be synchronous is so.
-/

namespace ModuleSystem.Loader

variable {C M : Type}

/-- A record is the same as another one, but for its exports and those who listen to them. -/
structure Record.Alike (r r' : Record C) : Prop extends r.SameProgress r' where
  firstReferrer : r'.firstReferrer = r.firstReferrer
  specifiers : r'.specifiers = r.specifiers
  pendingSetters : r'.pendingSetters = r.pendingSetters

namespace Record.Alike

variable {r r₁ r₂ r₃ : Record C}

theorem refl (r : Record C) : r.Alike r :=
  ⟨.refl r, rfl, rfl, rfl⟩

theorem trans (h : r₁.Alike r₂) (h' : r₂.Alike r₃) : r₁.Alike r₃ where
  toSameProgress := h.toSameProgress.trans h'.toSameProgress
  firstReferrer := h'.firstReferrer.trans h.firstReferrer
  specifiers := h'.specifiers.trans h.specifiers
  pendingSetters := h'.pendingSetters.trans h.pendingSetters

end Record.Alike

/-- Whether a body starts or ends. -/
def Event.isBody : Event → Bool
  | bodyStarted _ | bodyEnded _ _ => true
  | _ => false

namespace Store

/-- The starts and ends of bodies, in the order in which they happened. -/
def bodies (s : Store C) : List Event :=
  (s.history.filter Event.isBody).reverse

/-- Between two stores nothing has been made, no URL has been registered or been given another
meaning, and no body has been started or has ended. -/
structure Steady (s s' : Store C) : Prop where
  size_records : s'.records.size = s.records.size
  size_jobs : s'.jobs.size = s.jobs.size
  size_groups : s'.groups.size = s.groups.size
  registry : s'.registry = s.registry
  retired : s'.retired = s.retired
  resolve : s'.resolve = s.resolve
  bodies : s'.bodies = s.bodies

/-- Between two stores modules, jobs and groups have stayed as they were, but for exports. -/
structure Untouched (s s' : Store C) : Prop extends s.Steady s' where
  record : ∀ r, (s.record r).Alike (s'.record r)
  job : s'.job = s.job
  group : s'.group = s.group

section Steady

variable {s s₁ s₂ s₃ : Store C} {r : RecordId} {e : Event} {f : Record C → Record C}
  {j : JobId} {state : JobState C} {next : ModuleState} {error : LoaderError}

theorem bodies_note (h : e.isBody = true) : (s.note e).bodies = s.bodies ++ [e] := by
  rw [bodies, note, List.filter_cons_of_pos h, List.reverse_cons, bodies]

theorem Steady.refl (s : Store C) : Steady s s :=
  ⟨rfl, rfl, rfl, rfl, rfl, rfl, rfl⟩

theorem Steady.trans (h : Steady s₁ s₂) (h' : Steady s₂ s₃) : Steady s₁ s₃ where
  size_records := h'.size_records.trans h.size_records
  size_jobs := h'.size_jobs.trans h.size_jobs
  size_groups := h'.size_groups.trans h.size_groups
  registry := h'.registry.trans h.registry
  retired := h'.retired.trans h.retired
  resolve := h'.resolve.trans h.resolve
  bodies := h'.bodies.trans h.bodies

theorem Steady.isAlive (h : Steady s₁ s₂) : s₂.isAlive = s₁.isAlive := by
  funext r
  rw [Store.isAlive, h.retired, Store.isAlive]

theorem Steady.lookup (h : Steady s₁ s₂) : s₂.lookup = s₁.lookup := by
  funext url
  rw [Store.lookup, h.registry, Store.lookup]

theorem steady_note (h : e.isBody = false) : Steady s (s.note e) :=
  ⟨rfl, rfl, rfl, rfl, rfl, rfl, by
    rw [bodies, note, List.filter_cons_of_neg (Bool.eq_false_iff.mp h), bodies]⟩

theorem steady_update : Steady s (s.update r f) :=
  ⟨size_records_update, rfl, rfl, rfl, rfl, rfl, rfl⟩

theorem steady_enter : Steady s (s.enter r next) := by
  rw [enter]
  split
  · exact steady_update
  · exact steady_update.trans (steady_note rfl)

theorem steady_fail : Steady s (s.fail r error).1 := by
  rw [fail]
  dsimp only
  split
  · exact steady_update
  · exact steady_update.trans (steady_note rfl)

theorem steady_updateJob {f : Job C → Job C} : Steady s (s.updateJob j f) :=
  ⟨rfl, size_jobs_updateJob, rfl, rfl, rfl, rfl, rfl⟩

theorem steady_setJob : Steady s (s.setJob j state) :=
  steady_updateJob

theorem steady_subscribe {l : Listener} : Steady s (s.subscribe j l) := by
  rw [subscribe]
  split
  · exact .refl s
  · exact steady_updateJob

theorem steady_setGroup {g : GroupId} {group : Group} : Steady s (s.setGroup g group) :=
  ⟨rfl, rfl, size_groups_setGroup, rfl, rfl, rfl, rfl⟩

theorem steady_tell {ls : List Listener} : Steady s (s.tell ls) := by
  rw [tell]
  generalize 2 * (ls.length + s.jobs.foldl (fun n job => n + job.subscriptions.length) 0 +
    s.groups.size) = fuel
  induction fuel, ls, s using tellWithin.induct with
  | case1 fuel s =>
    rw [tellWithin]
    exact .refl s
  | case2 _ _ s => exact .refl s
  | case3 fuel others s ih => exact ih
  | case4 fuel j others s ih => exact steady_updateJob.trans ih
  | case5 fuel g i others s x caller h ih =>
    simp only [tellWithin, h]
    exact steady_setGroup.trans ih

theorem steady_finish {outcome : Outcome} : Steady s (s.finish j outcome) :=
  ((steady_updateJob.trans steady_setJob).trans (steady_note rfl)).trans steady_tell

theorem steady_adopt {registration : Registration C} : Steady s (s.adopt r registration) := by
  have added : ∀ runs : List (Option (RecordId → C)), ∀ s : Store C,
      Steady s (s.addSetters runs).1 := by
    intro runs
    induction runs with
    | nil => exact fun s => .refl s
    | cons run runs ih =>
      intro s
      cases run with
      | none => exact ih s
      | some run =>
        have added : Steady s { s with setters := s.setters.push { run } } :=
          ⟨rfl, rfl, rfl, rfl, rfl, rfl, rfl⟩
        exact added.trans (ih _)
  exact (added _ s).trans steady_update

theorem steady_attach {dependencies : List Dependency} : Steady s (s.attach r dependencies) :=
  steady_update.trans steady_enter

theorem steady_takeTurn : Steady s (s.takeTurn r) :=
  steady_enter.trans steady_update

end Steady

section Untouched

variable {s s' s₁ s₂ s₃ : Store C} {r : RecordId} {e : Event} {setters : List SetterId}
  {queue : List (SetterId × RecordId)} {b : Bool} {x : SetterId}

theorem Untouched.refl (s : Store C) : Untouched s s :=
  ⟨.refl s, fun _ => .refl _, rfl, rfl⟩

theorem Untouched.trans (h : Untouched s₁ s₂) (h' : Untouched s₂ s₃) : Untouched s₁ s₃ where
  toSteady := h.toSteady.trans h'.toSteady
  record r := (h.record r).trans (h'.record r)
  job := h'.job.trans h.job
  group := h'.group.trans h.group

theorem untouched_note (h : e.isBody = false) : Untouched s (s.note e) :=
  ⟨steady_note h, fun _ => .refl _, rfl, rfl⟩

theorem untouched_setQueue : Untouched s (s.setQueue queue b) :=
  ⟨⟨rfl, rfl, rfl, rfl, rfl, rfl, rfl⟩, fun _ => .refl _, rfl, rfl⟩

theorem untouched_markSetter : Untouched s (s.markSetter x b) :=
  ⟨⟨rfl, rfl, rfl, rfl, rfl, rfl, rfl⟩, fun _ => .refl _, rfl, rfl⟩

theorem untouched_raise : Untouched s (s.raise setters r) := by
  refine ⟨⟨rfl, rfl, rfl, rfl, rfl, rfl, ?_⟩, fun _ => .refl _, rfl, rfl⟩
  have raised : (setters.map fun setter => Event.raised setter r).reverse.filter
      Event.isBody = [] := by
    simp [Event.isBody]
  rw [bodies, raise, List.filter_append, raised, List.nil_append, bodies]

/-- A record is given other exports, or others listen to them. -/
theorem untouched_update {f : Record C → Record C} (h : (s.record r).Alike (f (s.record r))) :
    Untouched s (s.update r f) where
  record r' := by
    by_cases same : r' = r
    · subst same
      rcases Nat.lt_or_ge r' s.records.size with known | unknown
      · rw [record_update_self known]
        exact h
      · rw [record_of_size_le unknown, record_of_size_le (by rwa [size_records_update])]
        exact .refl _
    · rw [record_update_of_ne same]
      exact .refl _
  toSteady := steady_update
  job := rfl
  group := rfl

end Untouched

end Store

namespace Machine

open Store

/-- A machine that serves a request comes to another state. -/
inductive RunsTo (host : Host C M) (m : Machine C M) : Machine C M → Prop
  | refl : RunsTo host m m
  | step {x} (h : RunsTo host m x) (busy : x.reply? = none) : RunsTo host m (x.step host)

/-- Whether host code that runs next does nothing to the loader but export: it publishes values, or
it ends. A hook ends with a valid registration, whose dependencies have URLs. -/
def exportsOnly (host : Host C M) (m : Machine C M) : Bool :=
  match m.control with
  | .host code =>
    match (host.step m.store m.memory code).2, m.stack with
    | .ask (.publish _ _) _, _ => true
    | .finish result, .hook module :: _ =>
      match result.bind Registration.validate with
      | .ok registration => registration.dependencies.all fun specifier =>
          (m.store.resolve specifier (some (m.store.record module).url)).isOk
      | .error _ => false
    | .finish _, _ => true
    | _, _ => false
  | _ => true

/-- Whether the innermost activity is a hook, a body, or the delivery of notifications. -/
def runsHost (m : Machine C M) : Bool :=
  match m.stack with
  | .hook _ :: _ | .body _ :: _ | .draining :: _ => true
  | _ => false

/-- From a state on, host code only exports, and comes to its end whenever it is run, as does the
delivery of notifications. No more than some number of records is made. -/
structure Synchronous (host : Host C M) (limit : Nat) (m : Machine C M) : Prop where
  exports : ∀ x, m.RunsTo host x → x.exportsOnly host = true
  returns : ∀ x, m.RunsTo host x → x.runsHost = true →
    ∃ y, x.RunsTo host y ∧ y.stack.length < x.stack.length
  limited : ∀ x, m.RunsTo host x → x.store.records.size ≤ limit

section RunsTo

variable {host : Host C M} {m m₁ m₂ m₃ x : Machine C M} {limit : Nat}

theorem RunsTo.trans (h : m₁.RunsTo host m₂) (h' : m₂.RunsTo host m₃) : m₁.RunsTo host m₃ := by
  induction h' with
  | refl => exact h
  | step _ busy ih => exact .step ih busy

theorem reply?_of_control (h : ∀ reply, m.control ≠ .reply reply) : m.reply? = none := by
  rw [reply?]
  split
  · next control => exact absurd control (h _)
  · rfl

/-- A step of a machine that does not hand over a reply. -/
theorem RunsTo.of_step (next : m.step host = x) (busy : ∀ reply, m.control ≠ .reply reply) :
    m.RunsTo host x :=
  next ▸ RunsTo.step .refl (reply?_of_control busy)

theorem Synchronous.of_runsTo (sync : m.Synchronous host limit) (h : m.RunsTo host x) :
    x.Synchronous host limit where
  exports y hy := sync.exports y (h.trans hy)
  returns y hy := sync.returns y (h.trans hy)
  limited y hy := sync.limited y (h.trans hy)

end RunsTo

/-! ### Host code within an activity -/

/-- Host code runs above an activity, or notifications are delivered (`delivers`), as it did in the
beginning (`first`). -/
inductive Above (base : List (Frame C)) (first : Bool) : (delivers : Bool) → List (Frame C) → Prop
  | base : Above base first first base
  | setter {x st} (below : Above base first true st) : Above base first false (.setter x :: st)
  | draining {next st} (below : Above base first false st) :
      Above base first true (.draining :: .publishing :: .asking next :: st)

/-- Host code goes on above an activity. -/
inductive GoesOn (base : List (Frame C)) (first : Bool) : List (Frame C) → Control C → Prop
  | runs {st code} (place : Above base first false st) : GoesOn base first st (.host code)
  | asks {st next module entries} (place : Above base first false st) :
      GoesOn base first (.asking next :: st) (.serve (.publish module entries))
  | delivers {st} (place : Above base first true st) : GoesOn base first st .drain
  | publishes {st next} (place : Above base first false st) :
      GoesOn base first (.publishing :: .asking next :: st) .drained
  | answers {st next} (place : Above base first false st) :
      GoesOn base first (.asking next :: st) (.reply .done)

section Above

variable {base st : List (Frame C)} {first delivers : Bool} {c : Control C}

theorem Above.suffix (h : Above base first delivers st) : base <:+ st := by
  induction h with
  | base => exact List.suffix_refl _
  | setter _ ih => exact ih.trans (List.suffix_cons _ _)
  | draining _ ih =>
    exact ih.trans ((List.suffix_cons _ _).trans
      ((List.suffix_cons _ _).trans (List.suffix_cons _ _)))

theorem GoesOn.suffix (h : GoesOn base first st c) : base <:+ st := by
  cases h with
  | runs place | delivers place => exact place.suffix
  | asks place | answers place => exact place.suffix.trans (List.suffix_cons _ _)
  | publishes place =>
    exact place.suffix.trans ((List.suffix_cons _ _).trans (List.suffix_cons _ _))

end Above

/-- Activities that host code runs in, or whose delivery of notifications runs it (`delivers`). -/
inductive Hosts : List (Frame C) → (delivers : Bool) → Prop
  | hook {r st} : Hosts (.hook r :: st) false
  | body {r st} : Hosts (.body r :: st) false
  | draining {st} : Hosts (.draining :: st) true

/-- Host code is about to leave an activity with a result, or the notifications have been
delivered. -/
inductive Finishes (host : Host C M) : List (Frame C) → Bool → Machine C M → Prop
  | code {base s memory memory' code result}
      (ends : host.step s memory code = (memory', .finish result)) :
      Finishes host base false ⟨s, memory, base, .host code⟩
  | delivery {s memory st} : Finishes host (.draining :: st) true ⟨s, memory, st, .drained⟩

section Host

variable {host : Host C M} {m x y : Machine C M} {limit : Nat} {base st : List (Frame C)}
  {first : Bool} {r : RecordId} {s : Store C} {memory : M} {code : C}

/-- What host code does next if it only exports. -/
theorem action_of_exportsOnly (h : exportsOnly host ⟨s, memory, st, .host code⟩ = true) :
    (∃ memory' module entries next,
      host.step s memory code = (memory', .ask (.publish module entries) next)) ∨
    ∃ memory' result, host.step s memory code = (memory', .finish result) := by
  simp only [exportsOnly] at h
  cases hs : host.step s memory code with
  | mk memory' action =>
    rw [hs] at h
    cases action with
    | ask request next =>
      cases request with
      | publish module entries => exact .inl ⟨_, _, _, _, rfl⟩
      | _ => cases h
    | finish result => exact .inr ⟨_, _, rfl⟩
    | _ => cases h

/-- A delivery of notifications runs a setter, or goes on, or is over. -/
theorem step_drain (host : Host C M) (s : Store C) (memory : M) (st : List (Frame C)) :
    ∃ s', Untouched s s' ∧
      ((∃ x code, step host ⟨s, memory, .draining :: st, .drain⟩ =
          ⟨s', memory, .setter x :: .draining :: st, .host code⟩) ∨
        step host ⟨s, memory, .draining :: st, .drain⟩ = ⟨s', memory, .draining :: st, .drain⟩ ∨
        step host ⟨s, memory, .draining :: st, .drain⟩ = ⟨s', memory, st, .drained⟩) := by
  simp only [step, drain]
  cases hq : s.queue with
  | nil =>
    have emptied : Untouched s (s.setQueue [] false) := untouched_setQueue
    exact ⟨_, emptied, .inr (.inr rfl)⟩
  | cons entry queue =>
    obtain ⟨x, r⟩ := entry
    have taken : Untouched s (s.setQueue queue s.draining) := untouched_setQueue
    dsimp only [mapStore]
    cases hx : s.setters[x]? with
    | none => exact ⟨_, taken, .inr (.inl rfl)⟩
    | some setter =>
      dsimp only
      split_ifs with running
      · exact ⟨_, taken.trans (untouched_note rfl), .inr (.inl rfl)⟩
      · exact ⟨_, (taken.trans untouched_markSetter).trans (untouched_note rfl), .inl ⟨x, _, rfl⟩⟩

/-- Publishing is done at once, or the notifications of it are delivered, or will be by a delivery
further out. -/
theorem step_publish (host : Host C M) (s : Store C) (memory : M) (st : List (Frame C))
    (r : RecordId) (entries : List (String × Value)) :
    ∃ s', Untouched s s' ∧
      (step host ⟨s, memory, st, .serve (.publish r entries)⟩ = ⟨s', memory, st, .reply .done⟩ ∨
        step host ⟨s, memory, st, .serve (.publish r entries)⟩ =
          ⟨s', memory, .publishing :: st, .drained⟩ ∨
        step host ⟨s, memory, st, .serve (.publish r entries)⟩ =
          ⟨s', memory, .draining :: .publishing :: st, .drain⟩) := by
  simp only [step, serve, publish]
  split_ifs with dead changed
  · exact ⟨s, .refl s, .inl rfl⟩
  · have exported : Untouched s
        (s.update r fun _ => ((s.record r).exportAll entries).1) :=
      untouched_update ⟨⟨rfl, rfl, rfl, rfl, rfl, rfl, rfl, rfl⟩, rfl, rfl, rfl⟩
    have noted := exported.trans (untouched_note (e := .changed r) rfl)
    obtain ⟨s', st', c, eq, way⟩ := propagate_propagates
      ((⟨s.update r fun _ => ((s.record r).exportAll entries).1, memory, st, .drained⟩ :
        Machine C M).mapStore (fun s => s.note (.changed r)) |>.push .publishing .drained)
      ((s.record r).exportAll entries).1.importerSetters r
    refine ⟨s', ?_, .inr ?_⟩
    · cases way with
      | queued => exact noted.trans untouched_raise
      | delivered => exact (noted.trans untouched_raise).trans untouched_setQueue
    · cases way with
      | queued => exact .inl eq
      | delivered => exact .inr eq
  · exact ⟨_, untouched_update ⟨⟨rfl, rfl, rfl, rfl, rfl, rfl, rfl, rfl⟩, rfl, rfl, rfl⟩,
      .inl rfl⟩

/-- Host code above an activity is about to leave it, or goes on in a step, or has left it. -/
theorem GoesOn.step (h : GoesOn base first m.stack m.control) (hosts : Hosts base first)
    (exports : m.exportsOnly host = true) :
    Finishes host base first m ∨ Untouched m.store (m.step host).store ∧
      (GoesOn base first (m.step host).stack (m.step host).control ∨
        Finishes host base first (m.step host)) := by
  obtain ⟨s, memory, st, c⟩ := m
  dsimp only at h ⊢
  cases h with
  | @runs _ code place =>
    rcases action_of_exportsOnly exports with ⟨memory', r, entries, next, action⟩ |
      ⟨memory', result, action⟩
    · right
      simp only [Machine.step, runHost, action]
      exact ⟨.refl _, .inl (.asks place)⟩
    · cases place with
      | base => exact .inl (.code action)
      | setter below =>
        right
        simp only [Machine.step, runHost, action, hostEnds]
        exact ⟨untouched_markSetter, .inl (.delivers below)⟩
  | @asks st next r entries place =>
    right
    obtain ⟨s', same, step | step | step⟩ :=
      step_publish host s memory (.asking next :: st) r entries <;> rw [step]
    · exact ⟨same, .inl (.answers place)⟩
    · exact ⟨same, .inl (.publishes place)⟩
    · exact ⟨same, .inl (.delivers (.draining place))⟩
  | delivers place =>
    right
    have drains : ∃ st', st = .draining :: st' := by
      cases place with
      | base => cases hosts; exact ⟨_, rfl⟩
      | draining _ => exact ⟨_, rfl⟩
    obtain ⟨st', rfl⟩ := drains
    obtain ⟨s', same, ⟨x, code, step⟩ | step | step⟩ :=
      step_drain host s memory st' <;> rw [step]
    · exact ⟨same, .inl (.runs (.setter place))⟩
    · exact ⟨same, .inl (.delivers place)⟩
    · cases place with
      | base => exact ⟨same, .inr .delivery⟩
      | draining below => exact ⟨same, .inl (.publishes below)⟩
  | publishes place => exact .inr ⟨.refl _, .inl (.answers place)⟩
  | answers place => exact .inr ⟨.refl _, .inl (.runs place)⟩

/-- As long as host code has not left an activity, it goes on there. -/
private theorem GoesOn.runsTo (h : GoesOn base first m.stack m.control) (hosts : Hosts base first)
    (exports : ∀ x, m.RunsTo host x → x.exportsOnly host = true) (runs : m.RunsTo host x) :
    (Untouched m.store x.store ∧ GoesOn base first x.stack x.control) ∨
      ∃ y, m.RunsTo host y ∧ Untouched m.store y.store ∧ Finishes host base first y := by
  induction runs with
  | refl => exact .inl ⟨.refl _, h⟩
  | @step x runs busy ih =>
    rcases ih with ⟨same, goes⟩ | left
    · rcases goes.step hosts (exports x runs) with finishes | ⟨same', goes | finishes⟩
      · exact .inr ⟨x, runs, same, finishes⟩
      · exact .inl ⟨same.trans same', goes⟩
      · exact .inr ⟨_, runs.step busy, same.trans same', finishes⟩
    · exact .inr left

/-- Host code leaves an activity after some steps, and the modules are as they were. -/
private theorem Synchronous.finishes (sync : m.Synchronous host limit) (hosts : Hosts base first)
    (stack : m.stack = base) (goes : GoesOn base first m.stack m.control) :
    ∃ x, m.RunsTo host x ∧ Untouched m.store x.store ∧ Finishes host base first x := by
  have runs : m.runsHost = true := by
    rw [runsHost, stack]
    cases hosts <;> rfl
  obtain ⟨y, reach, shorter⟩ := sync.returns m .refl runs
  rcases goes.runsTo hosts sync.exports reach with ⟨_, goes⟩ | left
  · exact absurd goes.suffix.length_le (Nat.not_le.mpr (stack ▸ shorter))
  · exact left

/-- The code of a hook comes to its end. -/
theorem Synchronous.ends_hook
    (sync : Synchronous host limit ⟨s, memory, .hook r :: st, .host code⟩) :
    ∃ s' memory' memory'' code' result,
      RunsTo host ⟨s, memory, .hook r :: st, .host code⟩
        ⟨s', memory', .hook r :: st, .host code'⟩ ∧
      Untouched s s' ∧ host.step s' memory' code' = (memory'', .finish result) := by
  obtain ⟨x, reach, same, finishes⟩ := sync.finishes .hook rfl (.runs .base)
  cases finishes with
  | code ends => exact ⟨_, _, _, _, _, reach, same, ends⟩

/-- The code of a body comes to its end. -/
theorem Synchronous.ends_body
    (sync : Synchronous host limit ⟨s, memory, .body r :: st, .host code⟩) :
    ∃ s' memory' memory'' code' result,
      RunsTo host ⟨s, memory, .body r :: st, .host code⟩
        ⟨s', memory', .body r :: st, .host code'⟩ ∧
      Untouched s s' ∧ host.step s' memory' code' = (memory'', .finish result) := by
  obtain ⟨x, reach, same, finishes⟩ := sync.finishes .body rfl (.runs .base)
  cases finishes with
  | code ends => exact ⟨_, _, _, _, _, reach, same, ends⟩

/-- The delivery of notifications comes to its end. -/
theorem Synchronous.ends_delivery
    (sync : Synchronous host limit ⟨s, memory, .draining :: st, .drain⟩) :
    ∃ s' memory', RunsTo host ⟨s, memory, .draining :: st, .drain⟩ ⟨s', memory', st, .drained⟩ ∧
      Untouched s s' := by
  obtain ⟨x, reach, same, finishes⟩ := sync.finishes .draining rfl (.delivers .base)
  cases finishes with
  | delivery => exact ⟨_, _, reach, same⟩

end Host

/-! ### Machines that are computed -/

/-- The states that a machine goes through until it is at rest, as far as `fuel` steps reach. -/
def states (host : Host C M) : Nat → Machine C M → List (Machine C M)
  | 0, m => [m]
  | fuel + 1, m => if m.reply?.isSome then [m] else m :: states host fuel (m.step host)

section Computed

variable {host : Host C M} {m x y : Machine C M} {limit fuel : Nat}

/-- A machine makes a step first. -/
theorem RunsTo.cases_head (h : m.RunsTo host x) :
    x = m ∨ m.reply? = none ∧ (m.step host).RunsTo host x := by
  induction h with
  | refl => exact .inl rfl
  | step _ busy ih =>
    rcases ih with rfl | ⟨first, rest⟩
    · exact .inr ⟨busy, .refl⟩
    · exact .inr ⟨first, rest.step busy⟩

end Computed

end Machine

end ModuleSystem.Loader
