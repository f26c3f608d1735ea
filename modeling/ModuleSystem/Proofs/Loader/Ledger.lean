import ModuleSystem.Proofs.Loader.Updates

/-!
# The ledger of notifications

A notification is raised when it is queued, and delivered when its setter is called. Both can be read
off the history. If no host code gives up during a delivery, the notifications that have been raised
are those that have been delivered, followed by those in the queue. Nothing is ever taken out of the
two lists, so each notification is delivered once, and in the order in which they were raised.

While a delivery is under way, a setter runs, or else the next step calls the setter of the first
notification in the queue or, if there is none left, ends the delivery (`Machine.Delivers`). So how
long it takes is up to the setters alone.

## Main definitions

* `Store.raised`, `Store.delivered` : the notifications that have been raised and delivered.
* `Machine.running` : the setters that run.
* `Machine.Delivers` : how a delivery goes on.

## Main results

* `Machine.Run.delivered_once` : each notification is delivered once, in order, and no setter runs
  within another.
-/

namespace ModuleSystem.Loader

variable {C M : Type}

namespace Event

/-- The notification that an event queues. -/
def raised? : Event → Option (SetterId × RecordId)
  | raised x d => some (x, d)
  | _ => none

/-- The notification that an event delivers. -/
def called? : Event → Option (SetterId × RecordId)
  | called x d => some (x, d)
  | _ => none

end Event

namespace Store

/-- The notifications that have been raised, in this order. -/
def raised (s : Store C) : List (SetterId × RecordId) :=
  (s.history.filterMap Event.raised?).reverse

/-- The notifications that have been delivered, in this order. -/
def delivered (s : Store C) : List (SetterId × RecordId) :=
  (s.history.filterMap Event.called?).reverse

section Ledger

variable {s s' : Store C}

theorem raised_eq (s : Store C) :
    s.raised = (s.dispatches.filterMap Event.raised?).reverse := by
  rw [raised, dispatches, List.filterMap_filter]
  congr 2
  funext e
  cases e <;> rfl

theorem delivered_eq (s : Store C) :
    s.delivered = (s.dispatches.filterMap Event.called?).reverse := by
  rw [delivered, dispatches, List.filterMap_filter]
  congr 2
  funext e
  cases e <;> rfl

theorem dispatches_addSetters (setters : List (Option (RecordId → C))) (s : Store C) :
    (s.addSetters setters).1.dispatches = s.dispatches := by
  induction setters generalizing s with
  | nil => rfl
  | cons setter rest ih =>
    cases setter with
    | none => exact ih s
    | some run => exact ih { s with setters := s.setters.push { run } }

theorem dispatches_raise (s : Store C) (xs : List SetterId) (d : RecordId) :
    (s.raise xs d).dispatches = (xs.map fun x => Event.raised x d).reverse ++ s.dispatches := by
  rw [dispatches, raise, List.filter_append, List.filter_reverse, List.filter_map]
  congr 3
  exact List.filter_eq_self.mpr fun _ _ => rfl

end Ledger

end Store

/-- The setter that runs in an activity. -/
def Frame.setter? : Frame C → Option SetterId
  | setter x => some x
  | _ => none

namespace Machine

open Store

/-- The setters that run, the innermost first. -/
def running (m : Machine C M) : List SetterId :=
  m.stack.filterMap Frame.setter?

/-- How a delivery goes on that is under way while no setter runs. -/
inductive Delivers (host : Host C M) (m : Machine C M) : Prop
  /-- The setter of the first notification is called. -/
  | calls {x d queue code st} (control : m.control = .drain) (stack : m.stack = .draining :: st)
      (queued : m.store.queue = (x, d) :: queue) (known : m.store.setters[x]? = some code)
      (idle : code.isRunning = false) (stack' : (m.step host).stack = .setter x :: m.stack)
      (next : (m.step host).control = .host (code.run d))
      (rest : (m.step host).store.queue = queue)
      (delivered : (m.step host).store.delivered = m.store.delivered ++ [(x, d)])
  /-- All notifications have been delivered. -/
  | ends {st} (control : m.control = .drain) (stack : m.stack = .draining :: st)
      (empty : m.store.queue = []) (stack' : (m.step host).stack = st)
      (next : (m.step host).control = .drained) (queue : (m.step host).store.queue = [])
      (draining : (m.step host).store.draining = false)
      (delivered : (m.step host).store.delivered = m.store.raised)

/-- What a step does to notifications. -/
inductive Dispatches (m m' : Machine C M) : Prop
  | none (dispatches : m'.store.dispatches = m.store.dispatches)
      (queue : m'.store.queue = m.store.queue)
  | raises {xs : List SetterId} {d}
      (dispatches : m'.store.dispatches =
        (xs.map fun x => Event.raised x d).reverse ++ m.store.dispatches)
      (queue : m'.store.queue = m.store.queue ++ xs.map fun x => (x, d))
  | calls {x d} (dispatches : m'.store.dispatches = .called x d :: m.store.dispatches)
      (queue : m.store.queue = (x, d) :: m'.store.queue)
  /-- Host code gives up during the delivery. -/
  | givesUp (stack : m.stack = .draining :: m'.stack) (control : m.control = .unwind)
      (dispatches : m'.store.dispatches = m.store.dispatches)

section Steps

variable {host : Host C M} {ρ ρ' : Roles} {m m' : Machine C M} {trace : List (Machine C M)}
  {s s' : Store C} {st st' : List (Frame C)} {c' : Control C} {xs : List SetterId} {d : RecordId}

theorem Propagates.dispatches (way : Propagates s xs d st s' st' c') :
    s'.dispatches = (xs.map fun x => Event.raised x d).reverse ++ s.dispatches := by
  cases way <;> exact dispatches_raise s xs d

private theorem Dispatches.of_propagates (pace : SamePace m.store s)
    (way : Propagates s xs d st m'.store m'.stack m'.control) : Dispatches m m' :=
  .raises (pace.dispatches ▸ way.dispatches) (pace.queue ▸ way.queue_eq)

theorem SoundStep.dispatches (step : SoundStep host ρ ρ' m m') (paced : m.Paced)
    (known : ∀ n ∈ m.store.queue, n.1 < m.store.setters.size) : Dispatches m m' := by
  have listened := fun (xs : List Dependency) (s : Store C) => samePace_foldl samePace_listen xs s
  have same : SamePace m.store m'.store → Dispatches m m' := fun h => .none h.dispatches h.queue
  cases step.rule.notice with
  | mute store _ => exact same store.toSamePace
  | @adopts _ _ registration _ _ store =>
    refine .none ?_ ?_
    · rw [store]
      exact dispatches_addSetters _ _
    · rw [store]
      exact (addsSetters registration.setters m.store).queue
  | publishes _ after way =>
    subst after
    refine .of_propagates ?_ way
    exact ⟨rfl, rfl, rfl, rfl⟩
  | hands hands =>
    obtain ⟨way, _, _, after⟩ := hands
    exact .of_propagates (way.mute.1.toSamePace.trans (listened _ _)) after
  | attaches attaches =>
    obtain ⟨way, _, store⟩ := attaches
    refine same ?_
    rw [store]
    exact (way.mute.1.toSamePace.trans (listened _ _)).trans (samePace_attach ..)
  | deletes store _ => exact same (store ▸ samePace_delete ..)
  | defines store _ => exact same (store ▸ samePace_define ..)
  | @calls x d _ _ _ queued _ _ _ _ store =>
    refine .calls (x := x) (d := d) ?_ ?_
    · rw [store]
      rfl
    · rw [store]
      exact queued
  | @drops x d _ queued busy top _ _ _ _ =>
    -- the setter is there, and it is not running
    have lt : x < m.store.setters.size := known (x, d) (by rw [queued]; exact List.mem_cons_self)
    have code := Array.getElem?_eq_getElem lt
    exact nomatch (paced.not_running top code).symm.trans (busy _ code)
  | settles _ store => exact .none (by rw [store]; rfl) (by rw [store]; rfl)
  | rests stack store done =>
    rcases done with empty | unwinds
    · exact .none (by rw [store]; rfl) (by rw [store, empty]; rfl)
    · exact .givesUp stack unwinds (by rw [store]; rfl)

theorem SoundPause.dispatches (pause : SoundPause ρ m m') (paced : m.Paced) :
    m'.store.dispatches = m.store.dispatches ∧ m.store.queue = [] ∧ m'.store.queue = [] := by
  have empty : m.store.queue = [] := paced.idle pause.sound fun frame mem => by
    rw [(reply?_isSome.mp pause.rests).1] at mem
    exact nomatch mem
  refine ⟨?_, empty, ?_⟩
  · cases pause.change with
    | signals name => exact (mute_tellWithin _ _ _).dispatches
    | requests | remembers | dropsLoader | makesLoader => rfl
  · obtain ⟨_, _, same | none⟩ := pause.change.pace
    · rw [same, empty]
    · exact none

/-! ### What has been raised and delivered -/

theorem raised_of_raises
    (h : s'.dispatches = (xs.map fun x => Event.raised x d).reverse ++ s.dispatches) :
    s'.raised = s.raised ++ xs.map (·, d) ∧ s'.delivered = s.delivered := by
  have raises : (xs.map fun x => Event.raised x d).filterMap Event.raised? = xs.map (·, d) := by
    rw [List.filterMap_map]
    exact List.filterMap_eq_map_iff_forall_eq_some.mpr fun _ _ => rfl
  have calls : (xs.map fun x => Event.raised x d).filterMap Event.called? = [] := by
    rw [List.filterMap_map]
    exact List.filterMap_eq_nil_iff.mpr fun _ _ => rfl
  rw [raised_eq, raised_eq, delivered_eq, delivered_eq, h, List.filterMap_append,
    List.filterMap_append, List.filterMap_reverse, List.filterMap_reverse, raises, calls]
  exact ⟨by simp, rfl⟩

private theorem delivered_of_calls {x : SetterId}
    (h : s'.dispatches = .called x d :: s.dispatches) :
    s'.raised = s.raised ∧ s'.delivered = s.delivered ++ [(x, d)] := by
  rw [raised_eq, raised_eq, delivered_eq, delivered_eq, h]
  simp [List.filterMap_cons, Event.raised?, Event.called?]

theorem ledger_of_same (h : s'.dispatches = s.dispatches) :
    s'.raised = s.raised ∧ s'.delivered = s.delivered := by
  rw [raised_eq, raised_eq, delivered_eq, delivered_eq, h]
  exact ⟨rfl, rfl⟩

/-- What has been raised and delivered stays so. -/
theorem Dispatches.grows (h : Dispatches m m') : m.store.raised <+: m'.store.raised ∧
    m.store.delivered <+: m'.store.delivered := by
  cases h with
  | none dispatches _ | givesUp _ _ dispatches =>
    obtain ⟨raised, delivered⟩ := ledger_of_same dispatches
    rw [raised, delivered]
    exact ⟨List.prefix_refl _, List.prefix_refl _⟩
  | raises dispatches _ =>
    obtain ⟨raised, delivered⟩ := raised_of_raises dispatches
    rw [raised, delivered]
    exact ⟨List.prefix_append _ _, List.prefix_refl _⟩
  | calls dispatches _ =>
    obtain ⟨raised, delivered⟩ := delivered_of_calls dispatches
    rw [raised, delivered]
    exact ⟨List.prefix_refl _, List.prefix_append _ _⟩

/-- What has been raised has been delivered or waits in the queue. -/
theorem Dispatches.ledger (h : Dispatches m m')
    (ledger : m.store.raised = m.store.delivered ++ m.store.queue)
    (calm : ∀ st, m.stack = .draining :: st → m.control ≠ .unwind) :
    m'.store.raised = m'.store.delivered ++ m'.store.queue := by
  cases h with
  | none dispatches queue =>
    obtain ⟨raised, delivered⟩ := ledger_of_same dispatches
    rw [raised, delivered, queue, ledger]
  | raises dispatches queue =>
    obtain ⟨raised, delivered⟩ := raised_of_raises dispatches
    rw [raised, delivered, queue, ledger, List.append_assoc]
  | calls dispatches queue =>
    obtain ⟨raised, delivered⟩ := delivered_of_calls dispatches
    rw [raised, delivered, ledger, queue, List.append_assoc, List.singleton_append]
  | givesUp stack control _ => exact absurd control (calm _ stack)

/-! ### Runs -/

theorem Placement.known_queue (placement : m.Placement) :
    ∀ n ∈ m.store.queue, n.1 < m.store.setters.size :=
  fun n queued => placement.known n.1 n.2 (.inr (.inl queued))

/-- What has been raised and delivered stays so, in every run. -/
theorem Traced.ledger_grows (h : Traced host ρ (m :: trace)) {x : Machine C M}
    (mem : x ∈ m :: trace) :
    x.store.raised <+: m.store.raised ∧ x.store.delivered <+: m.store.delivered := by
  generalize hl : m :: trace = states at h mem
  induction h generalizing m trace with
  | start base resolver memory =>
    cases hl
    obtain rfl := List.mem_singleton.mp mem
    exact ⟨List.prefix_refl _, List.prefix_refl _⟩
  | step traced step ih =>
    cases hl
    rcases List.mem_cons.mp mem with rfl | mem
    · exact ⟨List.prefix_refl _, List.prefix_refl _⟩
    · obtain ⟨raised, delivered⟩ :=
        (step.dispatches traced.paced traced.placement.known_queue).grows
      exact (ih rfl mem).imp (·.trans raised) (·.trans delivered)
  | outside traced pause ih =>
    cases hl
    rcases List.mem_cons.mp mem with rfl | mem
    · exact ⟨List.prefix_refl _, List.prefix_refl _⟩
    · obtain ⟨raised, delivered⟩ := ledger_of_same (pause.dispatches traced.paced).1
      rw [raised, delivered]
      exact ih rfl mem

/-- No notification finds its setter running, in any run. -/
theorem Traced.unskipped (h : Traced host ρ (m :: trace)) {x : SetterId} :
    .skipped x d ∉ m.store.dispatches := by
  refine h.invariant (P := fun _ m => .skipped x d ∉ m.store.dispatches)
    (fun _ _ _ => List.not_mem_nil) (fun traced step unskipped => ?_)
    fun traced pause unskipped => ?_
  · cases step.dispatches traced.paced traced.placement.known_queue with
    | none dispatches _ | givesUp _ _ dispatches => rwa [dispatches]
    | raises dispatches _ =>
      rw [dispatches]
      simpa using unskipped
    | calls dispatches _ =>
      rw [dispatches]
      simpa using unskipped
  · rwa [(pause.dispatches traced.paced).1]

/-- In every run in which no host code gives up during a delivery, what has been raised has been
delivered or waits in the queue. -/
theorem Traced.ledger (h : Traced host ρ (m :: trace))
    (calm : ∀ x ∈ m :: trace, x.control = .unwind → x.store.draining = false) :
    m.store.raised = m.store.delivered ++ m.store.queue := by
  refine h.invariant_of (P := fun _ m => m.store.raised = m.store.delivered ++ m.store.queue)
    (fun _ _ _ => rfl) (fun traced calm step ledger => ?_) (fun traced pause ledger => ?_) calm
  · have paced := traced.paced
    refine (step.dispatches paced traced.placement.known_queue).ledger ledger fun st top unwinds => ?_
    have off := calm _ (List.mem_cons_of_mem _ List.mem_cons_self) unwinds
    exact nomatch off.symm.trans (paced.deliveries_eq top).1
  · obtain ⟨dispatches, before, after⟩ := pause.dispatches traced.paced
    obtain ⟨raised, delivered⟩ := ledger_of_same dispatches
    rw [raised, delivered, ledger, before, after]

/-! ### Deliveries -/

theorem running_eq (st : List (Frame C)) :
    st.filterMap Frame.setter? = (deliveries st).filterMap id := by
  induction st with
  | nil => rfl
  | cons frame st ih =>
    rw [List.filterMap_cons, ih]
    cases frame <;> rfl

/-- At most one setter runs. -/
theorem Paced.running_le (paced : m.Paced) : m.running.length ≤ 1 := by
  rw [Machine.running, running_eq]
  rcases paced.order with ⟨_, none⟩ | ⟨_, one | ⟨x, two⟩⟩
  · simp [none]
  · simp [one]
  · simp [two]

private theorem mem_deliveries (st : List (Frame C)) : none ∈ deliveries st ↔ .draining ∈ st := by
  induction st with
  | nil => exact iff_of_false List.not_mem_nil List.not_mem_nil
  | cons frame st ih => cases frame <;> simp [deliveries, ih]

/-- The queue is worked off just as long as there is an activity that does so. -/
theorem Paced.draining_iff (paced : m.Paced) :
    m.store.draining = true ↔ .draining ∈ m.stack := by
  rw [← mem_deliveries]
  rcases paced.order with ⟨off, none⟩ | ⟨on, one | ⟨x, two⟩⟩
  · simp [off, none]
  · simp [on, one]
  · simp [on, two]

/-- While a delivery is under way, a setter runs or the next notification is to be delivered. -/
theorem Paced.drains (paced : m.Paced) (sound : m.Sound ρ) (on : m.store.draining = true)
    (calm : m.control ≠ .unwind) (idle : m.running = []) :
    m.control = .drain ∧ ∃ st, m.stack = .draining :: st := by
  obtain ⟨above, st, stack⟩ := List.append_of_mem (paced.draining_iff.mp on)
  obtain ⟨slot, awaits, drain, _⟩ := sound.control.slot.resolve_left calm
  obtain ⟨slot', below, here⟩ := awaits.next_above ⟨above, stack.symm⟩
  rcases below with _ | ⟨drains, _⟩
  cases drains
  rcases here with ⟨top, rfl⟩ | ⟨frame, _, fits, mem⟩
  · exact ⟨drain rfl, st, top⟩
  · -- right above the delivery a setter runs
    cases fits
    have runs : _ ∈ m.running := List.mem_filterMap.mpr ⟨_, mem.subset List.mem_cons_self, rfl⟩
    rw [idle] at runs
    exact nomatch runs

/-- A delivery that is under way while no setter runs goes on with the next step. -/
theorem Placement.delivers (placement : m.Placement) (paced : m.Paced) (control : m.control = .drain)
    (stack : m.stack = .draining :: st)
    (ledger : m.store.raised = m.store.delivered ++ m.store.queue) : Delivers host m := by
  cases queued : m.store.queue with
  | nil =>
    have next : m.step host = ⟨m.store.setQueue [] false, m.memory, st, .drained⟩ := by
      simp [Machine.step, control, stack, drain, queued, setQueue, pop]
    have same : (m.store.setQueue [] false).delivered = m.store.delivered := rfl
    refine .ends control stack queued ?_ ?_ ?_ ?_ ?_ <;> rw [next]
    · rfl
    · rfl
    · rw [same, ledger, queued, List.append_nil]
  | cons notification queue =>
    obtain ⟨x, d⟩ := notification
    have lt : x < m.store.setters.size :=
      placement.known_queue (x, d) (by rw [queued]; exact List.mem_cons_self)
    have known := Array.getElem?_eq_getElem lt
    have idle := paced.not_running stack known
    have next : m.step host =
        ⟨((m.store.setQueue queue m.store.draining).markSetter x true).note (.called x d), m.memory,
          .setter x :: m.stack, .host (m.store.setters[x].run d)⟩ := by
      simp [Machine.step, control, stack, drain, queued, known, idle, mapStore, push, setQueue]
    refine .calls control stack queued known idle ?_ ?_ ?_ ?_ <;> rw [next]
    · rfl
    · exact (delivered_of_calls rfl).2

/-- In every run in which no host code gives up during a delivery, whatever setters do: each
notification that is raised is delivered once, in the order in which they were raised; no setter
runs within another, and none is skipped; and a delivery goes on until nothing is left in the
queue. -/
theorem Run.delivered_once (h : Run host (m :: trace))
    (calm : ∀ x ∈ m :: trace, x.control = .unwind → x.store.draining = false) :
    (∀ xs d, (m.propagate xs d).store.raised = m.store.raised ++ xs.map (·, d)) ∧
    m.store.raised = m.store.delivered ++ m.store.queue ∧
    (∀ x ∈ trace, x.store.raised <+: m.store.raised ∧ x.store.delivered <+: m.store.delivered) ∧
    (∀ x d, .skipped x d ∉ m.store.history) ∧
    m.running.length ≤ 1 ∧
    (m.store.draining = true → m.running = [] → Delivers host m) ∧
    (m.store.draining = true ↔ .draining ∈ m.stack) ∧
    (m.store.draining = false → m.store.queue = []) := by
  obtain ⟨ρ, traced⟩ := h.exists_roles
  have paced := traced.paced
  have ledger := traced.ledger calm
  refine ⟨fun xs d => ?_, ledger, fun x mem => traced.ledger_grows (List.mem_cons_of_mem _ mem),
    fun x d skipped => ?_, paced.running_le, fun on idle => ?_,
    paced.draining_iff, paced.empty⟩
  · obtain ⟨s, st, c, same, way⟩ := propagate_propagates m xs d
    rw [same]
    exact (raised_of_raises way.dispatches).1
  · exact traced.unskipped (List.mem_filter.mpr ⟨skipped, rfl⟩)
  · have going : m.control ≠ .unwind := fun unwinds =>
      nomatch on.symm.trans (calm m List.mem_cons_self unwinds)
    obtain ⟨control, st, stack⟩ := paced.drains traced.sound on going idle
    exact traced.placement.delivers paced control stack ledger

end Steps

/-- A module whose body exports something twice, a module whose setter passes this on under two
names, and a module that watches the second one. -/
def relayedModules : List (String × Script.Program) :=
  [("x:/a", { dependencies := [("x:/b", some [])] }),
   ("x:/b", { dependencies := [("x:/c", some [.copy "n" "m", .copy "n" "l"])] }),
   ("x:/c", { body := some (.steps [.publish [("n", .value .null)],
      .publish [("n", .value .undefined)]]) })]

section Relayed

/-- What the import comes to. -/
def relayedEnd : Machine Script.Code Script.Memory :=
  scriptedEnd relayedModules "x:/a" [.request (.poll (.waiting 0 2))] 110

/-- The states before. -/
def relayedTrace : List (Machine Script.Code Script.Memory) :=
  (scripted relayedModules "x:/a" [.request (.poll (.waiting 0 2))] 110).tail

theorem Run.delivered_once_relayed : Run Script.host (relayedEnd :: relayedTrace) ∧
    (∀ x ∈ relayedEnd :: relayedTrace, x.control = .unwind → x.store.draining = false) ∧
    (∃ x ∈ relayedTrace, x.running = [1] ∧ x.store.queue = [(0, 1), (0, 1)]) ∧
    relayedEnd.store.raised = [(1, 2), (0, 1), (0, 1), (1, 2), (0, 1), (0, 1)] ∧
    relayedEnd.store.raised = relayedEnd.store.delivered ++ relayedEnd.store.queue ∧
    (∀ x ∈ relayedTrace, x.store.raised <+: relayedEnd.store.raised ∧
      x.store.delivered <+: relayedEnd.store.delivered) ∧
    (∀ x d, .skipped x d ∉ relayedEnd.store.history) ∧
    relayedEnd.store.queue = [] := by
  have run : Run Script.host (relayedEnd :: relayedTrace) :=
    .scripted relayedModules "x:/a" [.request (.poll (.waiting 0 2))] 110
  have calm : ∀ x ∈ relayedEnd :: relayedTrace, x.control = .unwind → x.store.draining = false := by
    decide +kernel
  have still : relayedEnd.store.draining = false := by decide +kernel
  obtain ⟨_, ledger, grows, unskipped, _, _, _, empty⟩ := Run.delivered_once run calm
  exact ⟨run, calm, by decide +kernel, by decide +kernel, ledger, grows, unskipped, empty still⟩

end Relayed

end Machine

end ModuleSystem.Loader
