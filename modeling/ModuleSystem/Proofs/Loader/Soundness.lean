import Mathlib.Data.Nat.Init
import ModuleSystem.Proofs.Loader.Roles

/-!
# Soundness of the machine

A machine is sound for some roles if its store, its stack and its control fit them, and the jobs
that are being advanced are those that are running. A step of a sound machine leads to a sound one,
for roles that may have been added to. So a control never meets an activity that it does not belong
to, and every step follows a rule.

## Main definitions

* `Store.Fits`, `Machine.Sound` : what fits the roles.

## Main results

* `Machine.Sound.step` : steps keep machines sound.
-/

namespace ModuleSystem.Loader

variable {C M : Type}

open Machine Store

/-- The records and the jobs of a store agree with each other about what the jobs are for. -/
structure Store.Fits (ρ : Roles) (s : Store C) : Prop where
  kinds : ρ.kinds.length = s.jobs.size
  owners : ρ.owners.length = s.groups.size
  registered : ∀ e ∈ s.registry, e.2 < s.records.size
  instantiation : ∀ r, r < s.records.size → ρ.Instantiates (s.record r).instantiation r
  linking : ∀ r, r < s.records.size → ρ.Links (s.record r).linking r
  evaluation : ∀ r j, (s.record r).evaluation = some j → ρ.Is j (.execute r)
  topLevel : ∀ r j, (s.record r).topLevel = some j → ρ.Is j (.evaluate r)
  dependencies : ∀ r, ∀ d ∈ (s.record r).dependencies, ρ.Knows d
  instantiates : ∀ j r, ρ.Is j (.instantiate r) →
    r < s.records.size ∧ (s.record r).instantiation = j
  links : ∀ j r, ρ.Is j (.link r) → r < s.records.size ∧ (s.record r).linking = j
  evaluates : ∀ j r, ρ.Is j (.evaluate r) → r < s.records.size ∧ (s.record r).topLevel = some j
  ready : ∀ j r, ρ.Is j (.ready r) → r < s.records.size ∧ (s.record r).instantiation = j ∧
    (s.record r).linking = j ∧ (s.job j).state = .finished (.ok ())
  work : ∀ j w, (s.job j).state = .waiting w → w.Fits ρ j

/-- The parts of a machine fit the roles, and those jobs are running that are being advanced. -/
structure Machine.Sound (ρ : Roles) (m : Machine C M) : Prop where
  store : m.store.Fits ρ
  control : m.control.Fits ρ m.store m.stack
  running : ∀ j, (m.store.job j).state = .running ↔ j ∈ advanced m.stack
  nodup : (advanced m.stack).Nodup

namespace Store.Fits

variable {ρ : Roles} {s : Store C} {r : RecordId} {j : JobId}

theorem lt_of_lookup {url : Url} (fits : s.Fits ρ) (h : s.lookup url = some r) :
    r < s.records.size := by
  obtain ⟨l₁, l₂, h, _⟩ := List.lookup_eq_some_iff.mp h
  exact fits.registered (url.href, r) (by rw [h]; simp)

/-- The job that stands for the instantiation of a module is known from its record. -/
theorem instantiation_eq (fits : s.Fits ρ) (h : ρ.Instantiates j r) :
    r < s.records.size ∧ (s.record r).instantiation = j := by
  rcases h with h | h
  · exact fits.instantiates j r h
  · exact ⟨(fits.ready j r h).1, (fits.ready j r h).2.1⟩

/-- The job that stands for the linking of a module is known from its record. -/
theorem linking_eq (fits : s.Fits ρ) (h : ρ.Links j r) :
    r < s.records.size ∧ (s.record r).linking = j := by
  rcases h with h | h
  · exact fits.links j r h
  · exact ⟨(fits.ready j r h).1, (fits.ready j r h).2.2.1⟩

end Store.Fits

/-! ### The activities below -/

section Stack

variable {ρ ρ' : Roles} {s s₁ : Store C} {st st' : List (Frame C)} {c c' : Control C}
  {r : RecordId} {j : JobId} {g : GroupId} {dependencies rest : List Dependency}
  {children : List LinkNode} {jobs : List JobId} {seen : List RecordId}

/-- Below the work of a job is the activity that advances it. -/
theorem Awaits.of_work (h : Awaits ρ (.work j) st) :
    ∃ st', st = .advancing j :: st' ∧ Awaits ρ (.polled j) st' := by
  rcases h with _ | ⟨fits, below⟩
  cases fits
  exact ⟨_, rfl, below⟩

theorem Machine.Joins.awaits (way : Joins s st c r dependencies g s₁ st') (h : c.Fits ρ s st) :
    ∃ j, Awaits ρ (.work j) st' ∧ ρ.Is j (.link r) ∧ ρ.Owns j [] g ∧
      ∀ d ∈ dependencies, ρ.Knows d.module := by
  cases way with
  | starts l =>
    obtain ⟨j, awaits, fits⟩ := h
    cases fits with
    | awaitDependencies is owner known => exact ⟨j, awaits, is, owner, known⟩
  | settles l =>
    obtain ⟨i, awaits, _⟩ := h
    rcases awaits with _ | ⟨fits, below⟩
    cases fits with
    | joining is owner known _ _ => exact ⟨_, below, is, owner, known⟩

theorem Machine.HandsOver.awaits (way : HandsOver s st c r dependencies rest s₁ st')
    (h : c.Fits ρ s st) : ∃ j, Awaits ρ (.work j) st' ∧ ρ.Is j (.link r) ∧
      ∀ d ∈ dependencies, ρ.Knows d.module := by
  cases way with
  | resumes =>
    rcases h with _ | ⟨fits, below⟩
    cases fits with
    | handingOver is known => exact ⟨_, below, is, known⟩
  | starts way =>
    obtain ⟨j, awaits, is, _, known⟩ := way.awaits h
    exact ⟨j, awaits, is, known⟩

theorem Machine.Gathers.awaits (way : Gathers s st c r children g seen s₁ st')
    (h : c.Fits ρ s st) : ∃ j path, Awaits ρ (.linked j path r) st' ∧ ρ.Owns j path g ∧
      ∀ (i : Nat) child, children[i]? = some child → child.Fits ρ j (path ++ [i]) := by
  cases way with
  | starts l =>
    obtain ⟨j, path, awaits, fits⟩ := h
    cases fits with
    | join owner below => exact ⟨j, path, awaits, owner, below⟩
  | @waits _ _ children _ k child _ l =>
    obtain ⟨j, path, r', awaits, left⟩ := h
    rcases awaits with _ | ⟨fits, below⟩
    cases fits with
    | linkingChildren owner nodes _ =>
      refine ⟨_, _, below, owner, fun i child' hi => ?_⟩
      rw [List.getElem?_set] at hi
      split_ifs at hi with hk
      · obtain rfl := Option.some.inj hi
        rw [← hk]
        exact (left _ rfl).2.1
      · exact nodes i child' hi
  | ends l | fails l =>
    obtain ⟨j, path, r', awaits, _⟩ := h
    rcases awaits with _ | ⟨fits, below⟩
    cases fits with
    | linkingChildren owner nodes _ => exact ⟨_, _, below, owner, nodes⟩

theorem Machine.Collects.awaits (way : Collects s st c r jobs g s₁ st') (h : c.Fits ρ s st) :
    ∃ j, Awaits ρ (.work j) st' ∧ ρ.Is j (.execute r) ∧ ρ.Owns j [] g ∧
      ∀ i ∈ jobs, ρ.Executes i := by
  cases way with
  | starts l =>
    obtain ⟨j, awaits, fits⟩ := h
    cases fits with
    | executeAfter is owner members => exact ⟨j, awaits, is, owner, members⟩
  | settles l =>
    obtain ⟨i, awaits, _⟩ := h
    rcases awaits with _ | ⟨fits, below⟩
    cases fits with
    | executingAfter is owner members _ => exact ⟨_, below, is, owner, members⟩

theorem Machine.Turn.awaits {rest : List RecordId} (way : Turn s st c r rest jobs seen st')
    (store : s.Fits ρ) (h : c.Fits ρ s st) : ∃ j, Awaits ρ (.visited j r) st' ∧
      (∀ d ∈ rest, ρ.Knows d) ∧ ∀ i ∈ jobs, ρ.Executes i := by
  cases way with
  | first _ _ _ =>
    obtain ⟨j, awaits, _⟩ := h
    exact ⟨j, awaits, store.dependencies r, nofun⟩
  | @next _ _ _ jobs job _ =>
    obtain ⟨j, d, awaits, waits⟩ := h
    rcases awaits with _ | ⟨fits, below⟩
    cases fits with
    | visiting known members =>
      refine ⟨j, below, known, fun i hi => ?_⟩
      rcases List.mem_append.mp hi with hi | hi
      · exact members i hi
      · exact ⟨d, waits i (by rw [Option.mem_toList.mp hi])⟩

theorem Machine.getElem?_of_next? {α : Type} {members : List α} {x : α} {i : Nat}
    {group group' : Group} (h : group.next? members = some (x, i, group')) :
    members[i]? = some x := by
  obtain ⟨_, _, member, _⟩ := next?_eq_some h
  exact member

theorem Machine.Propagates.fits {setters : List SetterId}
    (way : Propagates s setters r st s₁ st' c') (h : Awaits ρ .drained st) :
    c'.Fits ρ s₁ st' := by
  cases way with
  | queued _ => exact h
  | delivered _ => exact .cons .draining h

end Stack

/-! ### Moves -/

section Moves

variable {ρ : Roles} {s : Store C} {st st' : List (Frame C)} {c c' : Control C}

theorem Store.Fits.knows_instantiation {r : RecordId} (fits : s.Fits ρ) (h : ρ.Knows r) :
    ρ.Instantiates (s.record r).instantiation r := by
  obtain ⟨j, h⟩ := h
  rwa [(fits.instantiation_eq h).2]

theorem Store.Fits.knows_linking {r : RecordId} (fits : s.Fits ρ) (h : ρ.Knows r) :
    ρ.Links (s.record r).linking r := by
  obtain ⟨j, h⟩ := h
  exact fits.linking r (fits.instantiation_eq h).1

theorem Store.Fits.knows_of_lt {r : RecordId} (fits : s.Fits ρ) (h : r < s.records.size) :
    ρ.Knows r :=
  ⟨_, fits.instantiation r h⟩

theorem Machine.Move.fits (h : Move s st c st' c') (store : s.Fits ρ) (control : c.Fits ρ s st)
    (issued : ∀ r j, c = .serve (.poll (.waiting r j)) → ρ.Is j (.evaluate r)) :
    c'.Fits ρ s st' := by
  cases h
  -- Requests and replies
  case refused | publishRefused | pollFailed | pollExecuted => exact ⟨control, nofun⟩
  case pollWaiting r j => exact .cons (.importing (issued r j rfl)) control
  case answered =>
    obtain ⟨_ | ⟨⟨⟩, below⟩, _⟩ := control
    exact below
  case published =>
    obtain _ | ⟨⟨⟩, below⟩ := control
    exact ⟨below, nofun⟩
  case imported =>
    obtain ⟨_, _ | ⟨⟨⟩, below⟩, _⟩ := control
    exact ⟨below, nofun⟩
  -- Jobs
  case pollFinished job outcome h => exact ⟨job, control, by rintro _ ⟨⟩; exact h⟩
  case pollAbandoned => exact ⟨_, control⟩
  -- Instantiating and linking a module
  case hookOrphaned | hookFailed =>
    obtain ⟨j, awaits, _⟩ := control
    exact ⟨j, awaits⟩
  case hookResumes =>
    obtain ⟨j, awaits, fits⟩ := control
    cases fits with
    | awaitHook is => exact .cons (.hook is) awaits
  case link r =>
    obtain ⟨j, awaits, fits⟩ := control
    cases fits with
    | link is => exact .cons (.linking is (store.instantiation r (store.links j r is).1)) awaits
  case linkWaits =>
    obtain ⟨_, _ | ⟨fits, below⟩, _⟩ := control
    cases fits with
    | linking is _ => exact ⟨_, below, .link is, trivial⟩
  case linkFails | linkOrphaned | linkFailed =>
    obtain ⟨_, _ | ⟨⟨⟩, below⟩, _⟩ := control
    exact ⟨_, below⟩
  -- Linking a graph
  case linkGraph =>
    obtain ⟨j, awaits, fits⟩ := control
    cases fits with
    | linkGraph is fits => exact ⟨j, [], .cons (.linkingGraph is) awaits, fits⟩
  case nodeSeen | nodeOrphaned | nodeFailed | nodeExecuted =>
    obtain ⟨j, path, awaits, _⟩ := control
    exact ⟨j, path, _, awaits, nofun⟩
  case nodeEntered =>
    obtain ⟨j, path, awaits, fits⟩ := control
    cases fits with
    | start known => exact ⟨j, path, awaits, .awaitLinked known⟩
  case nodeLinks =>
    obtain ⟨j, path, awaits, fits⟩ := control
    cases fits with
    | awaitLinked known => exact .cons (.linkingNode (store.knows_linking known)) awaits
  case nodeWaits r seen =>
    obtain ⟨_, _ | ⟨fits, below⟩, _⟩ := control
    cases fits with
    | linkingNode linking =>
      have known : ρ.Knows r := store.knows_of_lt (store.linking_eq linking).1
      exact ⟨_, _, r, below, by rintro _ ⟨⟩; exact ⟨rfl, .awaitLinked known, trivial⟩⟩
  case nodeFails | nodeLeft =>
    obtain ⟨_, _ | ⟨⟨⟩, below⟩, _⟩ := control
    exact ⟨_, _, _, below, nofun⟩
  case graphFails | graphOrphaned =>
    obtain ⟨j, path, r, _ | ⟨⟨⟩, below⟩, _⟩ := control
    exact ⟨j, below⟩
  case graphWaits =>
    obtain ⟨j, path, r, _ | ⟨frame, below⟩, left⟩ := control
    cases frame with
    | linkingGraph is =>
      obtain ⟨rfl, fits, begun⟩ := left _ rfl
      exact ⟨j, below, .linkGraph is fits, begun⟩
  case graphLinked r seen alive =>
    obtain ⟨j, path, _, _ | ⟨fits, below⟩, _⟩ := control
    cases fits with
    | linkingGraph is =>
      exact ⟨j, .cons (.executingGraph is) below, store.knows_of_lt (store.evaluates j r is).1⟩
  -- Executing a graph
  case visitSeen r seen h | visitExecuting r seen fresh h =>
    obtain ⟨j, awaits, _⟩ := control
    exact ⟨j, r, awaits, fun i hi => store.evaluation r i (Except.ok.inj hi)⟩
  case visitFailed | visitExecuted | visitUnlinked =>
    obtain ⟨j, awaits, _⟩ := control
    exact ⟨j, _, awaits, nofun⟩
  case visitWaiting r job seen fresh h h' =>
    obtain ⟨j, awaits, _⟩ := control
    exact ⟨j, r, awaits, by rintro _ ⟨⟩; exact store.evaluation r job h'⟩
  case turnVisits way =>
    obtain ⟨j, awaits, known, members⟩ := way.awaits store control
    have rest := fun d hd => known d (List.mem_cons_of_mem _ hd)
    exact ⟨j, .cons (.visiting rest members) awaits, known _ List.mem_cons_self⟩
  case attempted | attemptFailed =>
    obtain ⟨_, _ | ⟨⟨⟩, below⟩, _⟩ := control
    exact ⟨_, _, below, nofun⟩
  case graphAborted | graphExecuted =>
    obtain ⟨j, r, _ | ⟨⟨⟩, below⟩, _⟩ := control
    exact ⟨j, below⟩
  case graphSuspended =>
    obtain ⟨j, r, _ | ⟨fits, below⟩, waits⟩ := control
    cases fits with
    | executingGraph is => exact ⟨j, below, .awaitEvaluation is (waits _ rfl)⟩
  case evaluation =>
    obtain ⟨j, awaits, fits⟩ := control
    cases fits with
    | awaitEvaluation is executes => exact .cons (.evaluating is executes) awaits
  case evaluationWaits =>
    obtain ⟨_, _ | ⟨fits, below⟩, _⟩ := control
    cases fits with
    | evaluating is executes => exact ⟨_, below, .awaitEvaluation is executes, trivial⟩
  case evaluationEnds =>
    obtain ⟨_, _ | ⟨⟨⟩, below⟩, _⟩ := control
    exact ⟨_, below⟩
  case bodyOrphaned =>
    obtain ⟨j, awaits, _⟩ := control
    exact ⟨j, awaits⟩
  case bodyResumes =>
    obtain ⟨j, awaits, fits⟩ := control
    cases fits with
    | awaitBody is => exact .cons (.body is) awaits
  -- Giving up
  case unwound => exact ⟨.nil, nofun⟩
  case unwinds =>
    obtain ⟨_, _ | ⟨_, below⟩⟩ := control
    exact ⟨_, below⟩

end Moves

/-! ### What becomes of the roles -/

/-- What a job is for can be told from the state in which it has just been made. -/
inductive Machine.Tells (m : Machine C M) (j : JobId) : JobKind → Prop
  | ready {r} (known : r < m.store.records.size) (control : m.control = .reply (.defined r))
      (instantiation : (m.store.record r).instantiation = j)
      (linking : (m.store.record r).linking = j)
      (state : (m.store.job j).state = .finished (.ok ())) : Tells m j (.ready r)
  | instantiate {r} (known : r < m.store.records.size)
      (record : (m.store.record r).instantiation = j)
      (state : (m.store.job j).state = .waiting (.instantiate r)) : Tells m j (.instantiate r)
  | link {r} (known : r < m.store.records.size) (record : (m.store.record r).linking = j)
      (state : (m.store.job j).state = .waiting (.link r)) : Tells m j (.link r)
  | evaluate {r} (known : r < m.store.records.size)
      (record : (m.store.record r).topLevel = some j)
      (state : (m.store.job j).state = .waiting (.linkGraph r (.start r) [])) :
      Tells m j (.evaluate r)
  | deferred {r jobs g} (state : (m.store.job j).state = .waiting (.executeAfter r jobs g)) :
      Tells m j (.execute r)
  | turn {r body} (state : (m.store.job j).state = .waiting (.runBody r body)) :
      Tells m j (.execute r)

/-- The roles after a step: they have been added to, and those of new jobs are what these tell. -/
structure Roles.Follow (ρ ρ' : Roles) (m m' : Machine C M) : Prop where
  le : ρ ≤ ρ'
  kinds : ρ'.kinds.length = m'.store.jobs.size
  owners : ρ'.owners.length = m'.store.groups.size
  told : ∀ j kind, m.store.jobs.size ≤ j → ρ'.Is j kind → m'.Tells j kind

section Follow

variable {host : Host C M} {ρ ρ' : Roles} {m m' : Machine C M} {r : RecordId} {j : JobId}
  {kind : JobKind}

/-- Every new job tells what it is for. -/
theorem Machine.Makes.tells (h : Makes m m') (fits : m.store.Fits ρ)
    (hj : m.store.jobs.size ≤ j) (hj' : j < m'.store.jobs.size) : ∃ kind, m'.Tells j kind := by
  cases h.newJob (fun _ _ h => fits.lt_of_lookup h) hj hj' with
  | instantiate _ known record state => exact ⟨_, .instantiate known record state⟩
  | link _ known record state => exact ⟨_, .link known record state⟩
  | graph known record _ state => exact ⟨_, .evaluate known record state⟩
  | deferred _ _ _ state _ _ => exact ⟨_, .deferred state⟩
  | turn _ _ _ _ state _ => exact ⟨_, .turn state⟩
  | ready known next instantiation linking state =>
    exact ⟨_, .ready known next instantiation linking state⟩

/-- A list can be extended by elements that are right for their places. -/
private theorem exists_extension {α : Type} (p : Nat → α → Prop) (xs : List α) (n : Nat)
    (hn : xs.length ≤ n) (h : ∀ i, xs.length ≤ i → i < n → ∃ x, p i x) :
    ∃ ys, xs <+: ys ∧ ys.length = n ∧ ∀ i x, xs.length ≤ i → ys[i]? = some x → p i x := by
  induction n, hn using Nat.le_induction with
  | base =>
    refine ⟨xs, List.prefix_refl xs, rfl, fun i x hi hx => ?_⟩
    rw [List.getElem?_eq_none hi] at hx
    exact nomatch hx
  | succ n hn ih =>
    obtain ⟨ys, hpre, rfl, hys⟩ := ih fun i hi hi' => h i hi (Nat.lt_succ_of_lt hi')
    obtain ⟨y, hy⟩ := h ys.length hn (Nat.lt_succ_self _)
    refine ⟨ys ++ [y], hpre.trans (List.prefix_append ys [y]), by simp, fun i x hi hx => ?_⟩
    rw [List.getElem?_append] at hx
    split_ifs at hx with hlt
    · exact hys i x hi hx
    · obtain ⟨hi', rfl⟩ := List.getElem?_eq_some_iff.mp hx
      obtain rfl : i = ys.length := by simp at hi'; omega
      simpa using hy

/-- There are kinds for the jobs after a step. -/
theorem Machine.Makes.exists_kinds (h : Makes m m') (fits : m.store.Fits ρ) :
    ∃ kinds, ρ.kinds <+: kinds ∧ kinds.length = m'.store.jobs.size ∧
      ∀ j kind, m.store.jobs.size ≤ j → kinds[j]? = some kind → m'.Tells j kind := by
  have hsize := h.size_jobs_le
  rw [← fits.kinds] at hsize ⊢
  exact exists_extension m'.Tells ρ.kinds _ hsize fun j hj hj' =>
    h.tells fits (by rw [← fits.kinds]; exact hj) hj'

/-- Jobs that have ended stay as they are. -/
theorem Machine.Advance.finished (h : Advance m m')
    (running : ∀ j, j ∈ advanced m.stack → (m.store.job j).state = .running) {outcome : Outcome}
    (hj : j < m.store.jobs.size) (finished : (m.store.job j).state = .finished outcome) :
    (m'.store.job j).state = .finished outcome := by
  have other : ∀ i, i ∈ advanced m.stack → j ≠ i := by
    rintro i hi rfl
    exact nomatch finished.symm.trans (running j hi)
  cases h with
  | same _ state => rw [state j hj, finished]
  | takes waits _ _ _ state =>
    rw [state, if_neg, finished]
    rintro ⟨rfl, _⟩
    exact nomatch finished.symm.trans waits
  | putsAside _ _ stack state | ends _ _ stack state | abandons _ _ stack state =>
    rw [state, if_neg, finished]
    exact fun h => other _ (by rw [stack]; exact List.mem_cons_self) h.1

/-- A job that has been made waits or has ended. -/
theorem Machine.Tells.not_running (h : m.Tells j kind) : (m.store.job j).state ≠ .running := by
  cases h with
  | ready _ _ _ _ state | instantiate _ _ state | link _ _ state | evaluate _ _ state
      | deferred state | turn state => rw [state]; exact nofun

/-- What a new job is for, as far as its work says. -/
def Work.kind? : Work C → Option JobKind
  | instantiate r => some (.instantiate r)
  | link r => some (.link r)
  | linkGraph r _ _ => some (.evaluate r)
  | executeAfter r _ _ => some (.execute r)
  | runBody r _ => some (.execute r)
  | _ => none

theorem Machine.Tells.kind?_eq {w : Work C} (h : m.Tells j kind)
    (hw : (m.store.job j).state = .waiting w) : w.kind? = some kind := by
  cases h with
  | ready _ _ _ _ state => exact nomatch state.symm.trans hw
  | instantiate _ _ state | link _ _ state | evaluate _ _ state | deferred state | turn state =>
    obtain rfl := JobState.waiting.inj (hw.symm.trans state)
    rfl

namespace Roles.Follow

variable (follow : ρ.Follow ρ' m m')

include follow

theorem tells (hj : m.store.jobs.size ≤ j) (hj' : j < m'.store.jobs.size) :
    ∃ kind, ρ'.Is j kind ∧ m'.Tells j kind := by
  rw [← follow.kinds] at hj'
  exact ⟨ρ'.kinds[j], List.getElem?_eq_getElem hj',
    follow.told j _ hj (List.getElem?_eq_getElem hj')⟩

/-- A new job is of the kind that its work says. -/
theorem is_of_fresh {w : Work C} (h : Fresh m m' j w) (hw : w.kind? = some kind) :
    ρ'.Is j kind := by
  obtain ⟨kind', is, tells⟩ := follow.tells h.new h.known
  have := tells.kind?_eq h.waits
  rw [hw] at this
  rwa [Option.some.inj this]

/-- The new job of a module that has been defined stands for it. -/
theorem is_ready (next : m'.control = .reply (.defined r))
    (size : m'.store.jobs.size = m.store.jobs.size + 1)
    (state : (m'.store.job m.store.jobs.size).state = .finished (.ok ())) :
    ρ'.Is m.store.jobs.size (.ready r) := by
  obtain ⟨kind, is, tells⟩ := follow.tells (Nat.le_refl _) (by rw [size]; exact Nat.lt_succ_self _)
  cases tells with
  | ready _ control _ _ _ =>
    obtain rfl : r = _ := Reply.defined.inj (Control.reply.inj (next.symm.trans control))
    exact is
  | instantiate _ _ state' | link _ _ state' | evaluate _ _ state' | deferred state'
      | turn state' => exact nomatch state.symm.trans state'

/-- The kinds of jobs that exist stay as they are. -/
theorem is_of_lt (fits : m.store.Fits ρ) (hj : j < m.store.jobs.size) (h : ρ'.Is j kind) :
    ρ.Is j kind := by
  rw [← fits.kinds] at hj
  have is : ρ.Is j ρ.kinds[j] := List.getElem?_eq_getElem hj
  rwa [h.eq (is.mono follow.le)]

end Roles.Follow

/-- The jobs that stand for the instantiation of modules after a step. -/
theorem Roles.Follow.instantiation (follow : ρ.Follow ρ' m m') (fits : m.store.Fits ρ)
    (rule : Rule host m m') (hr : r < m'.store.records.size) :
    ρ'.Instantiates (m'.store.record r).instantiation r := by
  rcases Nat.lt_or_ge r m.store.records.size with hlt | hge
  · rw [(rule.recordChange hlt).instantiation_eq]
    exact (fits.instantiation r hlt).mono follow.le
  · cases rule.makes.newRecord hge hr with
    | made record instantiates _ _ =>
      rw [record]
      exact .inl (follow.is_of_fresh instantiates rfl)
    | defined next record size state =>
      rw [record]
      exact .inr (follow.is_ready next size state)

/-- The job for which the first attempt at a module has to wait executes it. -/
private theorem is_of_executing {st : List (Frame C)} {seen : List RecordId}
    (control : m.control.Fits ρ m.store m.stack) (stack : m.stack = .executing r j seen :: st)
    (hc : m.control = .polled none) : ρ.Is j (.execute r) := by
  rw [hc, stack] at control
  obtain ⟨i, awaits, _⟩ := control
  rcases awaits with _ | ⟨fits, _⟩
  cases fits with
  | executing is => exact is

theorem Store.Fits.step (fits : m.store.Fits ρ) (control : m.control.Fits ρ m.store m.stack)
    (rule : Rule host m m') (follow : ρ.Follow ρ' m m')
    (new : ∀ j w, m.store.jobs.size ≤ j → (m'.store.job j).state = .waiting w → w.Fits ρ' j)
    (running : ∀ j, j ∈ advanced m.stack → (m.store.job j).state = .running) :
    m'.store.Fits ρ' where
  kinds := follow.kinds
  owners := follow.owners
  registered := rule.registered fits.registered
  instantiation r hr := follow.instantiation fits rule hr
  linking r hr := by
    rcases Nat.lt_or_ge r m.store.records.size with hlt | hge
    · rw [(rule.recordChange hlt).linking_eq]
      exact (fits.linking r hlt).mono follow.le
    · cases rule.makes.newRecord hge hr with
      | made record _ links _ =>
        rw [record]
        exact .inl (follow.is_of_fresh links rfl)
      | defined next record size state =>
        rw [record]
        exact .inr (follow.is_ready next size state)
  evaluation r j h := by
    rcases Nat.lt_or_ge r m.store.records.size with hlt | hge
    · have keeps : (m.store.record r).evaluation = some j → ρ'.Is j (.execute r) := fun h =>
        (fits.evaluation r j h).mono follow.le
      cases rule.recordChange hlt with
      | same record => exact keeps (record.evaluation.symm.trans h)
      | failed _ same record =>
        rw [record, Record.poison_same.2.2.2.2.1] at h
        exact keeps (same.evaluation.symm.trans h)
      | attached _ _ listened record =>
        rw [record, Record.enter_same.2.2.2.2.1] at h
        exact keeps (listened.evaluation.symm.trans h)
      | imported _ _ _ _ _ record | adopted _ _ _ _ _ record =>
        rw [record] at h
        exact keeps h
      | hooked _ _ _ _ record | comes _ _ _ _ record | collected _ _ _ _ _ _ record =>
        rw [record] at h
        simp only [Record.enter_same.2.2.2.2.1] at h
        exact keeps h
      | deferred _ _ job record =>
        rw [record] at h
        obtain rfl := Option.some.inj h
        exact follow.is_of_fresh job rfl
      | suspended stack hc _ record =>
        rw [record] at h
        obtain rfl := Option.some.inj h
        exact (is_of_executing control stack hc).mono follow.le
      | ended _ _ _ _ _ record | bodyless _ _ _ _ record | bodyFailed _ _ _ record =>
        simp [record] at h
    · rcases Nat.lt_or_ge r m'.store.records.size with hlt' | hge'
      · cases rule.makes.newRecord hge hlt' with
        | made record _ _ _ => simp [record] at h
        | defined _ record _ _ => simp [record] at h
      · simp [record_of_size_le hge', Record.blank] at h
  topLevel r j h := by
    rcases Nat.lt_or_ge r m.store.records.size with hlt | hge
    · cases hold : (m.store.record r).topLevel with
      | some i =>
        rw [(rule.recordChange hlt).topLevel_eq hold] at h
        obtain rfl := Option.some.inj h
        exact (fits.topLevel r i hold).mono follow.le
      | none =>
        cases rule.recordChange hlt with
        | imported _ _ job _ _ record =>
          rw [record] at h
          obtain rfl := Option.some.inj h
          exact follow.is_of_fresh job rfl
        | same record => simp [record.topLevel, hold] at h
        | failed _ same record => simp [record, same.topLevel, hold] at h
        | attached _ _ listened record => simp [record, listened.topLevel, hold] at h
        | hooked _ _ _ _ record | adopted _ _ _ _ _ record | deferred _ _ _ record
            | comes _ _ _ _ record | collected _ _ _ _ _ _ record | suspended _ _ _ record
            | ended _ _ _ _ _ record | bodyless _ _ _ _ record | bodyFailed _ _ _ record =>
          simp [record, hold] at h
    · rcases Nat.lt_or_ge r m'.store.records.size with hlt' | hge'
      · cases rule.makes.newRecord hge hlt' with
        | made record _ _ imports =>
          rw [record] at h
          exact follow.is_of_fresh (imports j h) rfl
        | defined _ record _ _ => simp [record] at h
      · simp [record_of_size_le hge', Record.blank] at h
  dependencies r d hd := by
    rcases Nat.lt_or_ge r m.store.records.size with hlt | hge
    · have keeps : d ∈ (m.store.record r).dependencies → ρ'.Knows d := fun h =>
        (fits.dependencies r d h).mono follow.le
      cases rule.recordChange hlt with
      | same record => exact keeps (by rwa [record.dependencies] at hd)
      | failed _ same record => exact keeps (by simpa [record, same.dependencies] using hd)
      | attached way _ _ record =>
        simp only [record, Record.enter_same, List.mem_map] at hd
        obtain ⟨dependency, hmem, rfl⟩ := hd
        obtain ⟨_, _, _, known⟩ := way.awaits control
        exact (known dependency hmem).mono follow.le
      | imported _ _ _ _ _ record | hooked _ _ _ _ record | adopted _ _ _ _ _ record
          | deferred _ _ _ record | comes _ _ _ _ record | collected _ _ _ _ _ _ record
          | suspended _ _ _ record | ended _ _ _ _ _ record | bodyless _ _ _ _ record
          | bodyFailed _ _ _ record => exact keeps (by simpa [record] using hd)
    · rcases Nat.lt_or_ge r m'.store.records.size with hlt' | hge'
      · cases rule.makes.newRecord hge hlt' with
        | made record _ _ _ => simp [record] at hd
        | defined _ record _ _ => simp [record] at hd
      · simp [record_of_size_le hge', Record.blank] at hd
  instantiates j r h := by
    rcases Nat.lt_or_ge j m.store.jobs.size with hlt | hge
    · obtain ⟨hr, record⟩ := fits.instantiates j r (follow.is_of_lt fits hlt h)
      refine ⟨Nat.lt_of_lt_of_le hr rule.size_records_le, ?_⟩
      rw [(rule.recordChange hr).instantiation_eq, record]
    · cases follow.told j _ hge h with
      | instantiate known record _ => exact ⟨known, record⟩
  links j r h := by
    rcases Nat.lt_or_ge j m.store.jobs.size with hlt | hge
    · obtain ⟨hr, record⟩ := fits.links j r (follow.is_of_lt fits hlt h)
      refine ⟨Nat.lt_of_lt_of_le hr rule.size_records_le, ?_⟩
      rw [(rule.recordChange hr).linking_eq, record]
    · cases follow.told j _ hge h with
      | link known record _ => exact ⟨known, record⟩
  evaluates j r h := by
    rcases Nat.lt_or_ge j m.store.jobs.size with hlt | hge
    · obtain ⟨hr, record⟩ := fits.evaluates j r (follow.is_of_lt fits hlt h)
      exact ⟨Nat.lt_of_lt_of_le hr rule.size_records_le, (rule.recordChange hr).topLevel_eq record⟩
    · cases follow.told j _ hge h with
      | evaluate known record _ => exact ⟨known, record⟩
  ready j r h := by
    rcases Nat.lt_or_ge j m.store.jobs.size with hlt | hge
    · obtain ⟨hr, instantiation, linking, state⟩ := fits.ready j r (follow.is_of_lt fits hlt h)
      refine ⟨Nat.lt_of_lt_of_le hr rule.size_records_le, ?_, ?_, ?_⟩
      · rw [(rule.recordChange hr).instantiation_eq, instantiation]
      · rw [(rule.recordChange hr).linking_eq, linking]
      · exact rule.advance.finished running hlt state
    · cases follow.told j _ hge h with
      | ready known _ instantiation linking state => exact ⟨known, instantiation, linking, state⟩
  work j w h := by
    rcases Nat.lt_or_ge j m.store.jobs.size with hlt | hge
    · have keeps : (m.store.job j).state = .waiting w → w.Fits ρ' j := fun h =>
        (fits.work j w h).mono follow.le
      cases rule.advance with
      | same _ state => exact keeps ((state j hlt).symm.trans h)
      | takes _ _ _ _ state | ends _ _ _ state | abandons _ _ _ state =>
        rw [state] at h
        split_ifs at h
        exact keeps h
      | putsAside hc _ stack state =>
        rw [state] at h
        split_ifs at h with hj
        · obtain rfl := JobState.waiting.inj h
          rw [hj.1]
          rw [hc, stack] at control
          obtain ⟨i, awaits, fits, _⟩ := control
          obtain ⟨_, h, _⟩ := awaits.of_work
          cases h
          exact fits.mono follow.le
        · exact keeps h
    · exact new j w hge h

end Follow

/-! ### Steps -/

section Steps

variable {host : Host C M} {ρ ρ' : Roles} {m m' : Machine C M} {s s' : Store C}

private theorem Control.fits_unfinished {st : List (Frame C)} {j : JobId}
    (awaits : Awaits ρ (.polled j) st) : (Control.polled none).Fits ρ s st :=
  ⟨j, awaits, fun _ h => nomatch h⟩

private theorem Control.fits_work {st : List (Frame C)} {j : JobId} {w : Work C}
    (awaits : Awaits ρ (.work j) st) (fits : w.Fits ρ j) : (Control.work w).Fits ρ s st :=
  ⟨j, awaits, fits⟩

/-- What comes next fits the stack after a step that makes no group. -/
theorem Machine.Rule.fits (rule : Rule host m m') (store : m.store.Fits ρ)
    (store' : m'.store.Fits ρ') (control : m.control.Fits ρ m.store m.stack)
    (issued : ∀ r j, m.control = .serve (.poll (.waiting r j)) → ρ.Is j (.evaluate r))
    (follow : ρ.Follow ρ' m m') (groups : m'.store.groups.size = m.store.groups.size)
    (running : ∀ j, j ∈ advanced m.stack → (m.store.job j).state = .running) :
    m'.control.Fits ρ' m'.store m'.stack := by
  have le := follow.le
  cases rule
  case move h => exact (h.fits store control issued).mono le
  -- Host code
  case asks => exact .cons .asking (Awaits.mono control le)
  case givesUp => exact ⟨_, Awaits.mono control le⟩
  case hookWaits =>
    obtain _ | ⟨fits, below⟩ := control
    cases fits with
    | hook is => exact ⟨_, below.mono le, .awaitHook (is.mono le), trivial⟩
  case bodyWaits =>
    obtain _ | ⟨fits, below⟩ := control
    cases fits with
    | body is => exact ⟨_, below.mono le, .awaitBody (is.mono le), trivial⟩
  case setterWaits | setterEnds =>
    obtain _ | ⟨⟨⟩, below⟩ := control
    exact below.mono le
  case hookOrphaned | hookFails | hookTooLate | hookEnds | bodyOrphaned | bodyEnds | bodyFails =>
    obtain _ | ⟨⟨⟩, below⟩ := control
    exact ⟨_, below.mono le⟩
  -- Requests
  case publishesSame => exact ⟨Awaits.mono control le, fun _ _ h => nomatch h⟩
  case publishes way => exact way.fits (.cons .publishing (Awaits.mono control le))
  case starts s _ _ _ url referrer _ =>
    refine ⟨Awaits.mono control le, fun r j h => ?_⟩
    rcases importRecord_cases (s.getOrCreate url referrer).1 (s.getOrCreate url referrer).2 with
      ⟨_, _, h'⟩ | ⟨_, h'⟩ | ⟨_, topLevel, h'⟩ | ⟨_, _, _, h'⟩
    · rw [h'] at h
      exact nomatch h
    · rw [h'] at h
      exact nomatch h
    · rw [h'] at h
      obtain ⟨rfl, rfl⟩ := ImportHandle.waiting.inj (Reply.started.inj h)
      exact store'.topLevel _ _ (by rw [h']; exact topLevel)
    · rw [h'] at h
      cases h
      refine follow.is_of_fresh (w := .linkGraph _ (.start (s.getOrCreate url referrer).2) [])
        ⟨(creates_getOrCreate s url referrer).size_jobs_le, ?_, ?_⟩ rfl
      · rw [h', startImport_same.2.1]
        exact Nat.lt_succ_self _
      · rw [h', state_job_startImport, if_pos rfl]
  case defines | deletes => exact ⟨Awaits.mono control le, fun _ _ h => nomatch h⟩
  -- Notifications
  case drained =>
    obtain _ | ⟨⟨⟩, below⟩ := control
    exact below.mono le
  case forgets | skips => exact Awaits.mono control le
  case calls => exact .cons .setter (Awaits.mono control le)
  -- Jobs
  case pollRunning st job _ _ _ =>
    have awaits : Awaits ρ (.polled job) st := control
    exact Control.fits_unfinished (awaits.mono le)
  case pollWaiting st job work _ h _ =>
    have awaits : Awaits ρ (.polled job) st := control
    exact Control.fits_work (.cons .advancing (awaits.mono le)) ((store.work job work h).mono le)
  case putsAside =>
    obtain ⟨j, _ | ⟨⟨⟩, below⟩, _⟩ := control
    exact Control.fits_unfinished (below.mono le)
  case endsJob s _ st job outcome =>
    obtain ⟨j, _ | ⟨⟨⟩, below⟩⟩ := control
    have exists_job : job < s.jobs.size := Nat.lt_of_not_le fun hle =>
      nomatch (running job List.mem_cons_self).symm.trans (state_job_of_size_le hle)
    refine ⟨_, below.mono le, ?_⟩
    rintro _ ⟨⟩
    rw [state_job_finish, if_pos ⟨rfl, exists_job⟩]
  -- Instantiating and linking a module
  case callsHook =>
    obtain ⟨j, awaits, fits⟩ := control
    cases fits with
    | instantiate is => exact .cons (.hook (is.mono le)) (awaits.mono le)
  case unresolved =>
    obtain ⟨_, _ | ⟨⟨⟩, below⟩, _⟩ := control
    exact ⟨_, below.mono le⟩
  case resolves resolved =>
    have := (creates_resolveDependencies resolved).same.2.1
    simp [this] at groups
  case joins way h =>
    obtain ⟨j, awaits, is, owner, known⟩ := way.awaits control
    have member := getElem?_of_next? h
    have instantiation := store.knows_instantiation (known _ (List.mem_of_getElem? member))
    rw [way.still.record]
    refine Awaits.mono (.cons (.joining is owner known member instantiation) awaits) le
  case joinWaits way _ _ =>
    obtain ⟨j, awaits, is, owner, known⟩ := way.awaits control
    exact ⟨j, awaits.mono le, Work.Fits.mono (.awaitDependencies is owner known) le, trivial⟩
  case joinOrphaned way _ _ _ | joinFails way _ _ _ _ =>
    obtain ⟨j, awaits, _⟩ := way.awaits control
    exact ⟨j, awaits.mono le⟩
  case handsOver way _ after =>
    obtain ⟨j, awaits, is, known⟩ := way.awaits control
    exact after.fits (Awaits.mono (.cons (.handingOver is known) awaits) le)
  case handedOver way =>
    obtain ⟨j, awaits, _⟩ := way.awaits control
    exact ⟨j, awaits.mono le⟩
  -- Linking a graph
  case nodeLinked => simp at groups
  case gathers way _ h =>
    obtain ⟨j, path, awaits, owner, nodes⟩ := way.awaits control
    have member := getElem?_of_next? h
    exact ⟨j, _, Awaits.mono (.cons (.linkingChildren owner nodes member) awaits) le,
      (nodes _ _ member).mono le⟩
  case gatherWaits way _ _ _ =>
    obtain ⟨j, path, awaits, owner, nodes⟩ := way.awaits control
    refine ⟨j, path, _, awaits.mono le, ?_⟩
    rintro _ ⟨⟩
    exact ⟨rfl, LinkNode.Fits.mono (.join owner nodes) le, trivial⟩
  case gathered way _ _ | gatherOrphaned way _ _ | gatherFails way _ _ =>
    obtain ⟨j, path, awaits, _⟩ := way.awaits control
    exact ⟨j, path, _, awaits.mono le, fun _ h => nomatch h⟩
  -- Executing a graph
  case turnDeferred => simp at groups
  case turnComes s _ _ _ r _ _ way =>
    obtain ⟨j, awaits, _⟩ := way.awaits store control
    refine .cons (.executing ?_) (awaits.mono le)
    exact follow.is_of_fresh (w := .runBody r (s.record r).body)
      ⟨Nat.le_refl _, by simp, by simp [state_job_newJob]⟩ rfl
  case attemptWaits r job _ =>
    obtain ⟨_, _ | ⟨fits, below⟩, _⟩ := control
    cases fits with
    | executing is => exact ⟨_, r, below.mono le, by rintro _ ⟨⟩; exact is.mono le⟩
  case visitFails =>
    obtain ⟨j, _, _ | ⟨⟨⟩, below⟩, _⟩ := control
    exact ⟨j, _, below.mono le, fun _ h => nomatch h⟩
  case collects way _ h =>
    obtain ⟨j, awaits, is, owner, members⟩ := way.awaits control
    exact Awaits.mono (.cons (.executingAfter is owner members (getElem?_of_next? h)) awaits) le
  case collectWaits way _ _ _ =>
    obtain ⟨j, awaits, is, owner, members⟩ := way.awaits control
    exact ⟨j, awaits.mono le, Work.Fits.mono (.executeAfter is owner members) le, trivial⟩
  case collectOrphaned way _ | collectFails way _ _ | collectTooLate way _ _ =>
    obtain ⟨j, awaits, _⟩ := way.awaits control
    exact ⟨j, awaits.mono le⟩
  case collected way _ _ _ _ =>
    obtain ⟨j, awaits, is, _⟩ := way.awaits control
    exact ⟨j, awaits.mono le, .runBody (is.mono le)⟩
  case bodyStarts =>
    obtain ⟨j, awaits, fits⟩ := control
    cases fits with
    | runBody is => exact .cons (.body (is.mono le)) (awaits.mono le)
  case bodyless =>
    obtain ⟨j, awaits, _⟩ := control
    exact ⟨j, awaits.mono le⟩
  -- Giving up
  case drainAborted | setterAborted | jobAborted =>
    obtain ⟨_, _ | ⟨_, below⟩⟩ := control
    exact ⟨_, below.mono le⟩

/-- The work of new jobs fits, if that of a module that has been deferred does. -/
theorem Roles.Follow.fits_of_new (follow : ρ.Follow ρ' m m') (rule : Rule host m m')
    (store : m.store.Fits ρ)
    (deferred : ∀ r jobs seen, m'.store.groups.size = m.store.groups.size + 1 →
      m'.control = .visited (.ok (some m.store.jobs.size)) seen →
      (m'.store.job m.store.jobs.size).state =
        .waiting (.executeAfter r jobs m.store.groups.size) →
      (Work.executeAfter (C := C) r jobs m.store.groups.size).Fits ρ' m.store.jobs.size)
    (j : JobId) (w : Work C) (hj : m.store.jobs.size ≤ j)
    (hw : (m'.store.job j).state = .waiting w) : w.Fits ρ' j := by
  have hj' : j < m'.store.jobs.size :=
    Nat.lt_of_not_le fun hle => nomatch hw.symm.trans (state_job_of_size_le hle)
  have is : ∀ kind, w.kind? = some kind → ρ'.Is j kind := fun kind =>
    follow.is_of_fresh ⟨hj, hj', hw⟩
  cases rule.makes.newJob (fun _ _ h => store.lt_of_lookup h) hj hj' with
  | instantiate _ _ _ state =>
    obtain rfl := JobState.waiting.inj (hw.symm.trans state)
    exact .instantiate (is _ rfl)
  | link _ _ _ state =>
    obtain rfl := JobState.waiting.inj (hw.symm.trans state)
    exact .link (is _ rfl)
  | @graph r known _ _ state =>
    obtain rfl := JobState.waiting.inj (hw.symm.trans state)
    have node : (LinkNode.start r).Fits ρ' j [] := .start ⟨_, follow.instantiation store rule known⟩
    have graph : (Work.linkGraph (C := C) (LinkNode.start r).module (.start r) []).Fits ρ' j :=
      .linkGraph (is _ rfl) node
    exact graph
  | deferred new _ next state groups _ =>
    obtain rfl := JobState.waiting.inj (hw.symm.trans state)
    subst new
    exact deferred _ _ _ groups next state
  | turn _ _ _ _ state _ =>
    obtain rfl := JobState.waiting.inj (hw.symm.trans state)
    exact .runBody (is _ rfl)
  | ready _ _ _ _ state => exact nomatch hw.symm.trans state

/-- A group that is made in a step has someone to belong to. -/
theorem Machine.Rule.exists_owner (rule : Rule host m m') (store : m.store.Fits ρ)
    (control : m.control.Fits ρ m.store m.stack) (made : NewGroup m m') :
    ∃ owner, ∀ ρ', ρ.Follow ρ' m m' → ρ'.owners[m.store.groups.size]? = some owner →
      m'.control.Fits ρ' m'.store m'.stack ∧
      ∀ r jobs seen, m'.control = .visited (.ok (some m.store.jobs.size)) seen →
        (m'.store.job m.store.jobs.size).state =
          .waiting (.executeAfter r jobs m.store.groups.size) →
        (Work.executeAfter (C := C) r jobs m.store.groups.size).Fits ρ' m.store.jobs.size := by
  cases made with
  | dependencies stack hc next registered _ =>
    rw [hc, stack] at control
    obtain ⟨_, _ | ⟨fits, below⟩, _⟩ := control
    cases fits with
    | @linking j _ _ is _ =>
      refine ⟨(j, []), fun ρ' follow owner => ⟨?_, fun _ _ _ next' _ => ?_⟩⟩
      · rw [next]
        refine ⟨j, below.mono follow.le, .awaitDependencies (is.mono follow.le) owner ?_⟩
        intro d hd
        obtain ⟨e, he, same⟩ := registered d hd
        rw [← same]
        exact ⟨_, follow.instantiation store rule (rule.registered store.registered e he)⟩
      · exact nomatch next.symm.trans next'
  | @children r seen stack hc next _ =>
    rw [hc, stack] at control
    obtain ⟨_, _ | ⟨fits, below⟩, _⟩ := control
    cases fits with
    | @linkingNode j _ path _ _ _ =>
      refine ⟨(j, path), fun ρ' follow owner => ⟨?_, fun _ _ _ next' _ => ?_⟩⟩
      · rw [next]
        refine ⟨j, path, below.mono follow.le, .join owner fun i child hi => ?_⟩
        obtain ⟨d, hd, rfl⟩ := List.mem_map.mp (List.mem_of_getElem? hi)
        exact .start ((store.dependencies r d hd).mono follow.le)
      · exact nomatch next.symm.trans next'
  | @jobs r jobs seen way next job size _ =>
    obtain ⟨j, awaits, _, members⟩ := way.awaits store control
    refine ⟨(m.store.jobs.size, []), fun ρ' follow owner => ?_⟩
    have is : ρ'.Is m.store.jobs.size (.execute r) :=
      follow.is_of_fresh ⟨Nat.le_refl _, by rw [size]; exact Nat.lt_succ_self _, job⟩ rfl
    refine ⟨?_, fun r' jobs' _ _ state => ?_⟩
    · rw [next]
      exact ⟨j, r, awaits.mono follow.le, by rintro _ ⟨⟩; exact is⟩
    · obtain ⟨rfl, rfl, _⟩ := Work.executeAfter.inj (JobState.waiting.inj (job.symm.trans state))
      exact .executeAfter is owner fun i hi => (members i hi).mono follow.le

/-- The jobs that are being advanced are those that run, after a step too. -/
theorem Machine.Advance.running (h : Advance m m')
    (running : ∀ j, (m.store.job j).state = .running ↔ j ∈ advanced m.stack)
    (nodup : (advanced m.stack).Nodup)
    (new : ∀ j, m.store.jobs.size ≤ j → (m'.store.job j).state ≠ .running) :
    (∀ j, (m'.store.job j).state = .running ↔ j ∈ advanced m'.stack) ∧
      (advanced m'.stack).Nodup := by
  have lt_of_mem : ∀ j, j ∈ advanced m.stack → j < m.store.jobs.size := fun j hj =>
    Nat.lt_of_not_le fun hle =>
      nomatch ((running j).mpr hj).symm.trans (state_job_of_size_le hle)
  have leaves : ∀ {j state}, m.stack = .advancing j :: m'.stack → state ≠ JobState.running →
      (∀ j', (m'.store.job j').state =
        if j' = j ∧ j < m.store.jobs.size then state else (m.store.job j').state) →
      (∀ j', (m'.store.job j').state = .running ↔ j' ∈ advanced m'.stack) ∧
        (advanced m'.stack).Nodup := by
    intro j state stack idle h
    have mem : advanced m.stack = j :: advanced m'.stack := by rw [stack]; rfl
    rw [mem] at nodup
    obtain ⟨fresh, nodup⟩ := List.nodup_cons.mp nodup
    have known : j < m.store.jobs.size := lt_of_mem j (by rw [mem]; exact List.mem_cons_self)
    refine ⟨fun j' => ?_, nodup⟩
    rw [h]
    by_cases hj : j' = j
    · subst hj
      rw [if_pos ⟨rfl, known⟩]
      exact iff_of_false idle fresh
    · rw [if_neg fun h => hj h.1, running, mem, List.mem_cons, or_iff_right hj]
  cases h with
  | same stack state =>
    rw [stack]
    refine ⟨fun j => ?_, nodup⟩
    rcases Nat.lt_or_ge j m.store.jobs.size with hj | hj
    · rw [state j hj, running]
    · exact iff_of_false (new j hj) fun h => Nat.not_lt_of_le hj (lt_of_mem j h)
  | @takes j work waits _ _ stack state =>
    have known : j < m.store.jobs.size := Nat.lt_of_not_le fun hle =>
      nomatch waits.symm.trans (state_job_of_size_le hle)
    have idle : j ∉ advanced m.stack := fun h => nomatch waits.symm.trans ((running j).mpr h)
    rw [stack]
    refine ⟨fun j' => ?_, List.nodup_cons.mpr ⟨idle, nodup⟩⟩
    rw [state]
    by_cases hj : j' = j
    · subst hj
      rw [if_pos ⟨rfl, known⟩]
      exact iff_of_true rfl List.mem_cons_self
    · rw [if_neg fun h => hj h.1, running, advanced, List.mem_cons, or_iff_right hj]
  | putsAside _ _ stack state | ends _ _ stack state | abandons _ _ stack state =>
    exact leaves stack (by simp) state

/-- A step of a sound machine leads to a sound one. -/
theorem Machine.Sound.step (sound : m.Sound ρ) (rule : Rule host m m')
    (issued : ∀ r j, m.control = .serve (.poll (.waiting r j)) → ρ.Is j (.evaluate r)) :
    ∃ ρ', ρ.Follow ρ' m m' ∧ m'.Sound ρ' := by
  obtain ⟨kinds, hpre, hlen, told⟩ := rule.makes.exists_kinds sound.store
  have running := fun j hj => (sound.running j).mpr hj
  have rest : ∀ ρ', ρ.Follow ρ' m m' → m'.store.Fits ρ' →
      m'.control.Fits ρ' m'.store m'.stack → m'.Sound ρ' := by
    intro ρ' follow store control
    have new : ∀ j, m.store.jobs.size ≤ j → (m'.store.job j).state ≠ .running := by
      intro j hj
      rcases Nat.lt_or_ge j m'.store.jobs.size with hj' | hj'
      · obtain ⟨_, _, tells⟩ := follow.tells hj hj'
        exact tells.not_running
      · rw [state_job_of_size_le hj']
        simp
    have stays := rule.advance.running sound.running sound.nodup new
    exact ⟨store, control, stays.1, stays.2⟩
  rcases rule.groups with same | ⟨one, made⟩
  · have follow : ρ.Follow ⟨kinds, ρ.owners⟩ m m' :=
      ⟨⟨hpre, List.prefix_refl _⟩, hlen, by rw [same]; exact sound.store.owners, told⟩
    have store := sound.store.step sound.control rule follow
      (follow.fits_of_new rule sound.store fun _ _ _ one => by simp [same] at one) running
    exact ⟨_, follow, rest _ follow store
      (rule.fits sound.store store sound.control issued follow same running)⟩
  · obtain ⟨owner, h⟩ := rule.exists_owner sound.store sound.control made
    have follow : ρ.Follow ⟨kinds, ρ.owners ++ [owner]⟩ m m' := by
      refine ⟨⟨hpre, List.prefix_append _ _⟩, hlen, ?_, told⟩
      simp [one, sound.store.owners]
    obtain ⟨control, deferred⟩ := h _ follow (by simp [← sound.store.owners])
    have store := sound.store.step sound.control rule follow
      (follow.fits_of_new rule sound.store fun r jobs seen _ => deferred r jobs seen) running
    exact ⟨_, follow, rest _ follow store control⟩

end Steps

end ModuleSystem.Loader
