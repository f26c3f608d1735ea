import ModuleSystem.Proofs.Loader.Changes

/-!
# Roles of jobs and groups

A job has one role for its whole life: it instantiates a module, links it, executes it, or does all
of this for the graph below it. A group belongs to one job; of those in which a walk links a graph,
there is one for each place of the walk. Roles are given when a job or a group is made, and later
ones are added at the end (`Roles`, ordered by extension).

With the roles known, the stack of a machine can be read from the inside out: what is handed to the
innermost activity (`Slot`), what this hands on, and so forth, until a reply lies on an empty stack.
`Awaits` says that a stack can take what a slot is for. Each piece of work and each control has its
roles to fit in the same way (`Work.Fits`, `Control.Fits`).

## Main definitions

* `Roles`, `Slot`, `Frame.Fits`, `Awaits` : the roles, and how the activities on a stack fit.
* `Control.Fits` : a control fits a stack.
-/

namespace ModuleSystem.Loader

variable {C M : Type}

/-- What a job is for. -/
inductive JobKind where
  /-- The job stands for a module that was defined. -/
  | ready (module : RecordId)
  | instantiate (module : RecordId)
  | link (module : RecordId)
  | execute (module : RecordId)
  /-- The job links and executes the graph below a module. -/
  | evaluate (module : RecordId)
deriving DecidableEq

/-- What the jobs are for, and to which jobs the groups belong. Of the groups of one job, each is at
a place of its own. -/
structure Roles where
  kinds : List JobKind := []
  owners : List (JobId × List Nat) := []

namespace Roles

/-- Later roles are added at the end. -/
instance : LE Roles := ⟨fun ρ ρ' => ρ.kinds <+: ρ'.kinds ∧ ρ.owners <+: ρ'.owners⟩

/-- A job is of a kind. -/
def Is (ρ : Roles) (j : JobId) (kind : JobKind) : Prop :=
  ρ.kinds[j]? = some kind

/-- A group belongs to a job and is at a place. -/
def Owns (ρ : Roles) (j : JobId) (path : List Nat) (g : GroupId) : Prop :=
  ρ.owners[g]? = some (j, path)

/-- A job is the one that stands for the instantiation of a module. -/
def Instantiates (ρ : Roles) (j : JobId) (r : RecordId) : Prop :=
  ρ.Is j (.instantiate r) ∨ ρ.Is j (.ready r)

/-- A job is the one that stands for the linking of a module. -/
def Links (ρ : Roles) (j : JobId) (r : RecordId) : Prop :=
  ρ.Is j (.link r) ∨ ρ.Is j (.ready r)

/-- A module is there, with a job that stands for its instantiation. -/
def Knows (ρ : Roles) (r : RecordId) : Prop :=
  ∃ j, ρ.Instantiates j r

/-- A job executes a module. -/
def Executes (ρ : Roles) (j : JobId) : Prop :=
  ∃ r, ρ.Is j (.execute r)

section Order

variable {ρ ρ' ρ₁ ρ₂ ρ₃ : Roles} {j : JobId} {kind kind' : JobKind} {path : List Nat} {g : GroupId}
  {r : RecordId}

theorem le_refl (ρ : Roles) : ρ ≤ ρ := ⟨List.prefix_refl _, List.prefix_refl _⟩

theorem le_trans (h : ρ₁ ≤ ρ₂) (h' : ρ₂ ≤ ρ₃) : ρ₁ ≤ ρ₃ :=
  ⟨h.1.trans h'.1, h.2.trans h'.2⟩

theorem Is.eq (h : ρ.Is j kind) (h' : ρ.Is j kind') : kind = kind' :=
  Option.some.inj (h.symm.trans h')

theorem Is.lt (h : ρ.Is j kind) : j < ρ.kinds.length :=
  (List.getElem?_eq_some_iff.mp h).1

private theorem getElem?_of_prefix {α : Type} {xs ys : List α} {i : Nat} {x : α} (h : xs <+: ys)
    (hx : xs[i]? = some x) : ys[i]? = some x := by
  obtain ⟨zs, rfl⟩ := h
  rw [List.getElem?_append_left (List.getElem?_eq_some_iff.mp hx).1, hx]

theorem Is.mono (h : ρ.Is j kind) (le : ρ ≤ ρ') : ρ'.Is j kind :=
  getElem?_of_prefix le.1 h

theorem Owns.mono (h : ρ.Owns j path g) (le : ρ ≤ ρ') : ρ'.Owns j path g :=
  getElem?_of_prefix le.2 h

theorem Instantiates.mono (h : ρ.Instantiates j r) (le : ρ ≤ ρ') : ρ'.Instantiates j r :=
  h.imp (·.mono le) (·.mono le)

theorem Links.mono (h : ρ.Links j r) (le : ρ ≤ ρ') : ρ'.Links j r :=
  h.imp (·.mono le) (·.mono le)

theorem Knows.mono (h : ρ.Knows r) (le : ρ ≤ ρ') : ρ'.Knows r :=
  h.imp fun _ h => h.mono le

theorem Executes.mono (h : ρ.Executes j) (le : ρ ≤ ρ') : ρ'.Executes j :=
  h.imp fun _ h => h.mono le

end Order

end Roles

/-- The module that a node of a walk is at. -/
def LinkNode.module : LinkNode → RecordId
  | start r | awaitLinked r | join r _ _ => r

/-- Whether a walk has looked at the module of a node. -/
def LinkNode.IsBegun : LinkNode → Prop
  | start _ => False
  | _ => True

/-- A node of a walk that links a graph is at a place: its group, if it has one, belongs there. -/
inductive LinkNode.Fits (ρ : Roles) (j : JobId) : List Nat → LinkNode → Prop
  | start {path r} (known : ρ.Knows r) : Fits ρ j path (.start r)
  | awaitLinked {path r} (known : ρ.Knows r) : Fits ρ j path (.awaitLinked r)
  | join {path r children g} (owner : ρ.Owns j path g)
      (below : ∀ (i : Nat) child, children[i]? = some child → Fits ρ j (path ++ [i]) child) :
      Fits ρ j path (.join r children g)

/-- Work is that of a job. -/
inductive Work.Fits (ρ : Roles) (j : JobId) : Work C → Prop
  | instantiate {r} (h : ρ.Is j (.instantiate r)) : Fits ρ j (.instantiate r)
  | awaitHook {r code} (h : ρ.Is j (.instantiate r)) : Fits ρ j (.awaitHook r code)
  | link {r} (h : ρ.Is j (.link r)) : Fits ρ j (.link r)
  | awaitDependencies {r dependencies g} (h : ρ.Is j (.link r)) (owner : ρ.Owns j [] g)
      (known : ∀ d ∈ dependencies, ρ.Knows d.module) :
      Fits ρ j (.awaitDependencies r dependencies g)
  | linkGraph {node seen} (h : ρ.Is j (.evaluate node.module)) (fits : node.Fits ρ j []) :
      Fits ρ j (.linkGraph node.module node seen)
  | awaitEvaluation {r i} (h : ρ.Is j (.evaluate r)) (evaluation : ρ.Is i (.execute r)) :
      Fits ρ j (.awaitEvaluation i)
  | executeAfter {r jobs g} (h : ρ.Is j (.execute r)) (owner : ρ.Owns j [] g)
      (members : ∀ i ∈ jobs, ρ.Executes i) : Fits ρ j (.executeAfter r jobs g)
  | runBody {r body} (h : ρ.Is j (.execute r)) : Fits ρ j (.runBody r body)
  | awaitBody {r code} (h : ρ.Is j (.execute r)) : Fits ρ j (.awaitBody r code)

/-- Whether work can be put aside. -/
def Work.CanPause : Work C → Prop
  | .instantiate _ | .runBody .. => False
  | .linkGraph _ node _ => node.IsBegun
  | _ => True

/-- What is handed to an activity. -/
inductive Slot where
  | reply
  | host
  | drain
  | drained
  /-- How a job stands. -/
  | polled (job : JobId)
  /-- How the work of a job goes on. -/
  | work (job : JobId)
  /-- How the walk of a job that links a graph ends at a place, where a module is. -/
  | linked (job : JobId) (path : List Nat) (module : RecordId)
  /-- How the walk of a job that executes a graph ends at a module. -/
  | visited (job : JobId) (module : RecordId)

/-- What is handed to an activity, and what it hands on when it is over. -/
inductive Frame.Fits (ρ : Roles) : Slot → Frame C → Slot → Prop
  | hook {j r} (h : ρ.Is j (.instantiate r)) : Fits ρ .host (.hook r) (.work j)
  | body {j r} (h : ρ.Is j (.execute r)) : Fits ρ .host (.body r) (.work j)
  | setter {x} : Fits ρ .host (.setter x) .drain
  | asking {next} : Fits ρ .reply (.asking next) .host
  | importing {j r} (h : ρ.Is j (.evaluate r)) : Fits ρ (.polled j) (.importing r) .reply
  | advancing {j} : Fits ρ (.work j) (.advancing j) (.polled j)
  | draining : Fits ρ .drain .draining .drained
  | publishing : Fits ρ .drained .publishing .reply
  | linking {j i r} (h : ρ.Is j (.link r)) (instantiation : ρ.Instantiates i r) :
      Fits ρ (.polled i) (.linking r) (.work j)
  | joining {j i r dependencies g k dependency} (h : ρ.Is j (.link r)) (owner : ρ.Owns j [] g)
      (known : ∀ d ∈ dependencies, ρ.Knows d.module)
      (member : dependencies[k]? = some dependency)
      (instantiation : ρ.Instantiates i dependency.module) :
      Fits ρ (.polled i) (.joining r dependencies g k) (.work j)
  | handingOver {j r dependencies rest} (h : ρ.Is j (.link r))
      (known : ∀ d ∈ dependencies, ρ.Knows d.module) :
      Fits ρ .drained (.handingOver r dependencies rest) (.work j)
  | linkingGraph {j r} (h : ρ.Is j (.evaluate r)) :
      Fits ρ (.linked j [] r) (.linkingGraph r) (.work j)
  | linkingNode {j i path r seen} (linking : ρ.Links i r) :
      Fits ρ (.polled i) (.linkingNode r seen) (.linked j path r)
  | linkingChildren {j path r children g k child} (owner : ρ.Owns j path g)
      (below : ∀ (i : Nat) child, children[i]? = some child → child.Fits ρ j (path ++ [i]))
      (member : children[k]? = some child) :
      Fits ρ (.linked j (path ++ [k]) child.module) (.linkingChildren r children g k)
        (.linked j path r)
  | executingGraph {j r} (h : ρ.Is j (.evaluate r)) :
      Fits ρ (.visited j r) .executingGraph (.work j)
  | visiting {j d r rest jobs} (known : ∀ d ∈ rest, ρ.Knows d) (members : ∀ i ∈ jobs, ρ.Executes i) :
      Fits ρ (.visited j d) (.visiting r rest jobs) (.visited j r)
  | executing {j i r seen} (h : ρ.Is i (.execute r)) :
      Fits ρ (.polled i) (.executing r i seen) (.visited j r)
  | evaluating {j i r} (h : ρ.Is j (.evaluate r)) (evaluation : ρ.Is i (.execute r)) :
      Fits ρ (.polled i) (.evaluating i) (.work j)
  | executingAfter {j i r jobs g k} (h : ρ.Is j (.execute r)) (owner : ρ.Owns j [] g)
      (members : ∀ i ∈ jobs, ρ.Executes i) (member : jobs[k]? = some i) :
      Fits ρ (.polled i) (.executingAfter r jobs g k) (.work j)

/-- A stack can take what is handed to a slot, down to the reply. -/
inductive Awaits (ρ : Roles) : Slot → List (Frame C) → Prop
  | nil : Awaits ρ .reply []
  | cons {slot slot' frame st} (h : frame.Fits ρ slot slot') (below : Awaits ρ slot' st) :
      Awaits ρ slot (frame :: st)

/-- What comes next can be handed to a stack. -/
def Control.Fits (ρ : Roles) (s : Store C) (st : List (Frame C)) : Control C → Prop
  | .host _ => Awaits ρ .host st
  | .serve _ => Awaits ρ .reply st
  | .reply answer => Awaits ρ .reply st ∧
      ∀ r j, answer = .started (.waiting r j) → ρ.Is j (.evaluate r)
  | .drain => Awaits ρ .drain st
  | .drained => Awaits ρ .drained st
  | .poll j => Awaits ρ (.polled j) st
  | .polled outcome => ∃ j, Awaits ρ (.polled j) st ∧
      ∀ o, outcome = some o → (s.job j).state = .finished o
  | .work w => ∃ j, Awaits ρ (.work j) st ∧ w.Fits ρ j
  | .paused w => ∃ j, Awaits ρ (.work j) st ∧ w.Fits ρ j ∧ w.CanPause
  | .ended _ => ∃ j, Awaits ρ (.work j) st
  | .link node _ => ∃ j path, Awaits ρ (.linked j path node.module) st ∧ node.Fits ρ j path
  | .linked result _ => ∃ j path r, Awaits ρ (.linked j path r) st ∧
      ∀ node, result = .ok (some node) → node.module = r ∧ node.Fits ρ j path ∧ node.IsBegun
  | .visit r _ => ∃ j, Awaits ρ (.visited j r) st ∧ ρ.Knows r
  | .visited result _ => ∃ j r, Awaits ρ (.visited j r) st ∧
      ∀ i, result = .ok (some i) → ρ.Is i (.execute r)
  | .unwind => ∃ slot, Awaits ρ slot st

/-! ### Roles that are added -/

section Added

variable {ρ ρ' : Roles} {s : Store C} {st : List (Frame C)} {c : Control C} {j : JobId}
  {path : List Nat} {node : LinkNode} {w : Work C} {frame : Frame C} {slot slot' : Slot}

theorem LinkNode.Fits.mono (h : node.Fits ρ j path) (le : ρ ≤ ρ') : node.Fits ρ' j path := by
  induction h with
  | start known => exact .start (known.mono le)
  | awaitLinked known => exact .awaitLinked (known.mono le)
  | join owner _ ih => exact .join (owner.mono le) ih

theorem Work.Fits.mono (h : w.Fits ρ j) (le : ρ ≤ ρ') : w.Fits ρ' j := by
  cases h with
  | instantiate h => exact .instantiate (h.mono le)
  | awaitHook h => exact .awaitHook (h.mono le)
  | link h => exact .link (h.mono le)
  | awaitDependencies h owner known =>
    exact .awaitDependencies (h.mono le) (owner.mono le) fun d hd => (known d hd).mono le
  | linkGraph h fits => exact .linkGraph (h.mono le) (fits.mono le)
  | awaitEvaluation h evaluation => exact .awaitEvaluation (h.mono le) (evaluation.mono le)
  | executeAfter h owner members =>
    exact .executeAfter (h.mono le) (owner.mono le) fun i hi => (members i hi).mono le
  | runBody h => exact .runBody (h.mono le)
  | awaitBody h => exact .awaitBody (h.mono le)

theorem Frame.Fits.mono (h : frame.Fits ρ slot slot') (le : ρ ≤ ρ') :
    frame.Fits ρ' slot slot' := by
  cases h with
  | hook h => exact .hook (h.mono le)
  | body h => exact .body (h.mono le)
  | setter => exact .setter
  | asking => exact .asking
  | importing h => exact .importing (h.mono le)
  | advancing => exact .advancing
  | draining => exact .draining
  | publishing => exact .publishing
  | linking h instantiation => exact .linking (h.mono le) (instantiation.mono le)
  | joining h owner known member instantiation =>
    exact .joining (h.mono le) (owner.mono le) (fun d hd => (known d hd).mono le) member
      (instantiation.mono le)
  | handingOver h known => exact .handingOver (h.mono le) fun d hd => (known d hd).mono le
  | linkingGraph h => exact .linkingGraph (h.mono le)
  | linkingNode linking => exact .linkingNode (linking.mono le)
  | linkingChildren owner below member =>
    exact .linkingChildren (owner.mono le) (fun i child h => (below i child h).mono le) member
  | executingGraph h => exact .executingGraph (h.mono le)
  | visiting known members =>
    exact .visiting (fun d hd => (known d hd).mono le) fun i hi => (members i hi).mono le
  | executing h => exact .executing (h.mono le)
  | evaluating h evaluation => exact .evaluating (h.mono le) (evaluation.mono le)
  | executingAfter h owner members member =>
    exact .executingAfter (h.mono le) (owner.mono le) (fun i hi => (members i hi).mono le) member

theorem Awaits.mono (h : Awaits ρ slot st) (le : ρ ≤ ρ') : Awaits ρ' slot st := by
  induction h with
  | nil => exact .nil
  | cons h _ ih => exact .cons (h.mono le) ih

theorem Control.Fits.mono (h : c.Fits ρ s st) (le : ρ ≤ ρ') : c.Fits ρ' s st := by
  cases c with
  | reply _ => exact ⟨h.1.mono le, fun r j hr => (h.2 r j hr).mono le⟩
  | polled _ =>
    obtain ⟨j, h, finished⟩ := h
    exact ⟨j, h.mono le, finished⟩
  | work w =>
    obtain ⟨j, h, fits⟩ := h
    exact ⟨j, h.mono le, fits.mono le⟩
  | paused w =>
    obtain ⟨j, h, fits, begun⟩ := h
    exact ⟨j, h.mono le, fits.mono le, begun⟩
  | ended _ =>
    obtain ⟨j, h⟩ := h
    exact ⟨j, h.mono le⟩
  | link node _ =>
    obtain ⟨j, path, h, fits⟩ := h
    exact ⟨j, path, h.mono le, fits.mono le⟩
  | linked result _ =>
    obtain ⟨j, path, r, h, left⟩ := h
    exact ⟨j, path, r, h.mono le, fun node hn =>
      ⟨(left node hn).1, (left node hn).2.1.mono le, (left node hn).2.2⟩⟩
  | visit r _ =>
    obtain ⟨j, h, known⟩ := h
    exact ⟨j, h.mono le, known.mono le⟩
  | visited result _ =>
    obtain ⟨j, r, h, waits⟩ := h
    exact ⟨j, r, h.mono le, fun i hi => (waits i hi).mono le⟩
  | unwind =>
    obtain ⟨slot, h⟩ := h
    exact ⟨slot, h.mono le⟩
  | _ => exact Awaits.mono h le

end Added

/-! ### Controls that fit belong to their activity -/

/-- A control that fits is handed to an activity that can take it. -/
theorem Control.Fits.belongs {ρ : Roles} {s : Store C} {st : List (Frame C)} {c : Control C}
    (h : c.Fits ρ s st) (busy : ∀ reply, c = .reply reply → st ≠ []) : Machine.Belongs c st := by
  cases c with
  | host _ =>
    change Awaits ρ .host st at h
    rcases h with _ | ⟨fits, _⟩
    cases fits <;> trivial
  | reply reply =>
    obtain ⟨h, _⟩ := h
    rcases h with _ | ⟨fits, _⟩
    · exact absurd rfl (busy reply rfl)
    · cases fits
      trivial
  | drain =>
    change Awaits ρ .drain st at h
    rcases h with _ | ⟨fits, _⟩
    cases fits
    trivial
  | drained =>
    change Awaits ρ .drained st at h
    rcases h with _ | ⟨fits, _⟩
    cases fits <;> trivial
  | polled _ =>
    obtain ⟨j, h, _⟩ := h
    rcases h with _ | ⟨fits, _⟩
    cases fits <;> trivial
  | paused _ =>
    obtain ⟨j, h, _⟩ := h
    rcases h with _ | ⟨fits, _⟩
    cases fits
    trivial
  | ended _ =>
    obtain ⟨j, h⟩ := h
    rcases h with _ | ⟨fits, _⟩
    cases fits
    trivial
  | linked _ _ =>
    obtain ⟨j, path, r, h, _⟩ := h
    generalize hslot : Slot.linked j path r = slot at h
    rcases h with _ | ⟨fits, _⟩
    · exact nomatch hslot
    · cases fits <;> trivial
  | visited _ _ =>
    obtain ⟨j, r, h, _⟩ := h
    rcases h with _ | ⟨fits, _⟩
    cases fits <;> trivial
  | serve _ | poll _ | work _ | link _ _ | visit _ _ | unwind => trivial

end ModuleSystem.Loader
