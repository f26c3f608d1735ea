import ModuleSystem.Proofs.Loader.Store

/-!
# Rules of the loading machine

`Machine.step` is a function made of many smaller ones. This file describes what it does by rules:
each constructor of `Machine.Rule` is one way in which a machine goes on, with everything that has
to hold for it and with the store, the stack and the control afterwards. The rules that leave the
store as it is form a relation of their own, `Machine.Move`.

Some rules have several ways leading up to them, say the start of an attempt at a group and the end
of one of its members. These ways are relations too (`Machine.Joins`, `Machine.Gathers`,
`Machine.Collects`, `Machine.HandsOver`, `Machine.Turn`), so that every rule is stated once.

## Main results

* `Machine.step_rule` : a step of a machine whose control belongs to its stack follows a rule.
-/

namespace ModuleSystem.Loader

variable {C M : Type}

namespace Machine

/-- Who is told when something that a stack waits for can go on. -/
def ear (s : Store C) (st : List (Frame C)) : Listener :=
  (st.findSome? (Frame.listener? s)).getD .nobody

/-! ### Ways that lead to several rules -/

/-- Notifications are queued: a delivery under way comes to them, or one starts. -/
inductive Propagates (s : Store C) (setters : List SetterId) (module : RecordId)
    (st : List (Frame C)) : Store C → List (Frame C) → Control C → Prop
  | queued (h : s.draining = true) : Propagates s setters module st (s.raise setters module) st
      .drained
  | delivered (h : s.draining = false) : Propagates s setters module st
      ((s.raise setters module).setQueue (s.raise setters module).queue true) (.draining :: st) .drain

/-- The dependencies of a module are looked at, a group whose instantiation has just been started
or has just made progress. -/
inductive Joins (s : Store C) : List (Frame C) → Control C → RecordId → List Dependency →
    GroupId → Store C → List (Frame C) → Prop
  | starts {st module dependencies group} (l : Listener) (own : l = ear s st) :
      Joins s st (.work (.awaitDependencies module dependencies group)) module dependencies group
        (s.setGroup group ((s.group group).start l)) st
  | settles {st module dependencies group i outcome} (l : Listener) (own : l = ear s st) :
      Joins s (.joining module dependencies group i :: st) (.polled outcome) module dependencies
        group (s.settle group i outcome l) st

/-- The setters in `rest` are left to be handed over for a module that is being linked. -/
inductive HandsOver (s : Store C) : List (Frame C) → Control C → RecordId → List Dependency →
    List Dependency → Store C → List (Frame C) → Prop
  | resumes {st module dependencies rest} :
      HandsOver s (.handingOver module dependencies rest :: st) .drained module dependencies rest
        s st
  | starts {st c module dependencies group s₁ st'}
      (way : Joins s st c module dependencies group s₁ st')
      (next : (s₁.group group).next? dependencies = none) (done : (s₁.group group).isOver = true)
      (alive : s₁.isAlive module = true) (clean : (s₁.group group).failure? = none) :
      HandsOver s st c module dependencies dependencies s₁ st'

/-- The dependencies of a module that are linked as a graph are looked at. -/
inductive Gathers (s : Store C) : List (Frame C) → Control C → RecordId → List LinkNode →
    GroupId → List RecordId → Store C → List (Frame C) → Prop
  | starts {st module children group seen} (l : Listener) (own : l = ear s st) :
      Gathers s st (.link (.join module children group) seen) module children group seen
        (s.setGroup group ((s.group group).start l)) st
  | waits {st module children group i child seen} (l : Listener) (own : l = ear s st) :
      Gathers s (.linkingChildren module children group i :: st) (.linked (.ok (some child)) seen)
        module (children.set i child) group seen (s.settle group i none l) st
  | ends {st module children group i seen} (l : Listener) (own : l = ear s st) :
      Gathers s (.linkingChildren module children group i :: st) (.linked (.ok none) seen)
        module children group seen (s.settle group i (some (.ok ())) l) st
  | fails {st module children group i error seen} (l : Listener) (own : l = ear s st) :
      Gathers s (.linkingChildren module children group i :: st) (.linked (.error error) seen)
        module children group seen (s.settle group i (some (.error error)) l) st

/-- The jobs that a module waits for are looked at. -/
inductive Collects (s : Store C) : List (Frame C) → Control C → RecordId → List JobId →
    GroupId → Store C → List (Frame C) → Prop
  | starts {st module jobs group} (l : Listener) (own : l = ear s st) :
      Collects s st (.work (.executeAfter module jobs group)) module jobs group
        (s.setGroup group ((s.group group).start l)) st
  | settles {st module jobs group i outcome} (l : Listener) (own : l = ear s st) :
      Collects s (.executingAfter module jobs group i :: st) (.polled outcome) module jobs group
        (s.settle group i outcome l) st

/-- A walk that executes a graph is at a module: those in `rest` are left of its dependencies, and
`jobs` have to end before it. -/
inductive Turn (s : Store C) : List (Frame C) → Control C → RecordId → List RecordId →
    List JobId → List RecordId → List (Frame C) → Prop
  | first {st module seen} (fresh : module ∉ seen) (linked : (s.record module).state = .linked)
      (idle : (s.record module).evaluation = none) :
      Turn s st (.visit module seen) module (s.record module).dependencies [] (module :: seen) st
  | next {st module rest jobs job seen} :
      Turn s (.visiting module rest jobs :: st) (.visited (.ok job) seen) module rest
        (jobs ++ job.toList) seen st

/-! ### Rules that leave the store as it is -/

/-- How the stack and the control of a machine go on without a change of the store. -/
inductive Move (s : Store C) : List (Frame C) → Control C → List (Frame C) → Control C → Prop
  -- Requests and replies
  | refused {st request error} (h : s.target? request = some (.error error)) :
      Move s st (.serve request) st (.reply (.started (.failed error)))
  | publishRefused {st module entries} (dead : s.isAlive module = false) :
      Move s st (.serve (.publish module entries)) st (.reply .done)
  | pollFailed {st error} : Move s st (.serve (.poll (.failed error))) st
      (.reply (.progress (some (.error error))))
  | pollExecuted {st module} : Move s st (.serve (.poll (.executed module))) st
      (.reply (.progress (some (.ok module))))
  | pollWaiting {st module job} : Move s st (.serve (.poll (.waiting module job)))
      (.importing module :: st) (.poll job)
  | answered {st next reply} : Move s (.asking next :: st) (.reply reply) st (.host (next reply))
  | published {st} : Move s (.publishing :: st) .drained st (.reply .done)
  | imported {st module outcome} : Move s (.importing module :: st) (.polled outcome) st
      (.reply (.progress (outcome.map fun o => o.map fun _ => module)))
  -- Jobs
  | pollFinished {st job outcome} (h : (s.job job).state = .finished outcome) :
      Move s st (.poll job) st (.polled (some outcome))
  | pollAbandoned {st job} (h : (s.job job).state = .abandoned) : Move s st (.poll job) st .unwind
  -- Instantiating and linking a module
  | hookOrphaned {st module} (dead : s.isAlive module = false) :
      Move s st (.work (.instantiate module)) st (.ended (.error .loaderDropped))
  | hookFailed {st module error} (alive : s.isAlive module = true)
      (h : (s.record module).state = .failed error) :
      Move s st (.work (.instantiate module)) st (.ended (.error error))
  | hookResumes {st module code} : Move s st (.work (.awaitHook module code))
      (.hook module :: st) (.host code)
  | link {st module} : Move s st (.work (.link module)) (.linking module :: st)
      (.poll (s.record module).instantiation)
  | linkWaits {st module} : Move s (.linking module :: st) (.polled none) st
      (.paused (.link module))
  | linkFails {st module error} : Move s (.linking module :: st) (.polled (some (.error error))) st
      (.ended (.error error))
  | linkOrphaned {st module} (dead : s.isAlive module = false) :
      Move s (.linking module :: st) (.polled (some (.ok ()))) st (.ended (.error .loaderDropped))
  | linkFailed {st module error} (alive : s.isAlive module = true)
      (h : (s.record module).state = .failed error) :
      Move s (.linking module :: st) (.polled (some (.ok ()))) st (.ended (.error error))
  -- Linking a graph
  | linkGraph {st module node seen} : Move s st (.work (.linkGraph module node seen))
      (.linkingGraph module :: st) (.link node seen)
  | nodeSeen {st module seen} (h : module ∈ seen) : Move s st (.link (.start module) seen) st
      (.linked (.ok none) seen)
  | nodeOrphaned {st module seen} (fresh : module ∉ seen) (dead : s.isAlive module = false) :
      Move s st (.link (.start module) seen) st (.linked (.error .loaderDropped) (module :: seen))
  | nodeExecuted {st module seen} (fresh : module ∉ seen) (alive : s.isAlive module = true)
      (h : (s.record module).state = .executed) :
      Move s st (.link (.start module) seen) st (.linked (.ok none) (module :: seen))
  | nodeFailed {st module error seen} (fresh : module ∉ seen) (alive : s.isAlive module = true)
      (h : (s.record module).state = .failed error) :
      Move s st (.link (.start module) seen) st (.linked (.error error) (module :: seen))
  | nodeEntered {st module seen} (fresh : module ∉ seen) (alive : s.isAlive module = true)
      (h : (s.record module).state ≠ .executed)
      (h' : ∀ error, (s.record module).state ≠ .failed error) :
      Move s st (.link (.start module) seen) st (.link (.awaitLinked module) (module :: seen))
  | nodeLinks {st module seen} : Move s st (.link (.awaitLinked module) seen)
      (.linkingNode module seen :: st) (.poll (s.record module).linking)
  | nodeWaits {st module seen} : Move s (.linkingNode module seen :: st) (.polled none) st
      (.linked (.ok (some (.awaitLinked module))) seen)
  | nodeFails {st module seen error} : Move s (.linkingNode module seen :: st)
      (.polled (some (.error error))) st (.linked (.error error) seen)
  | nodeLeft {st module seen} (dead : s.isAlive module = false) :
      Move s (.linkingNode module seen :: st) (.polled (some (.ok ()))) st
        (.linked (.error .loaderDropped) seen)
  | graphFails {st module error seen} : Move s (.linkingGraph module :: st)
      (.linked (.error error) seen) st (.ended (.error error))
  | graphWaits {st module node seen} : Move s (.linkingGraph module :: st)
      (.linked (.ok (some node)) seen) st (.paused (.linkGraph module node seen))
  | graphOrphaned {st module seen} (dead : s.isAlive module = false) :
      Move s (.linkingGraph module :: st) (.linked (.ok none) seen) st
        (.ended (.error .loaderDropped))
  | graphLinked {st module seen} (alive : s.isAlive module = true) :
      Move s (.linkingGraph module :: st) (.linked (.ok none) seen) (.executingGraph :: st)
        (.visit module [])
  -- Executing a graph
  | visitSeen {st module seen} (h : module ∈ seen) : Move s st (.visit module seen) st
      (.visited (.ok (s.record module).evaluation) seen)
  | visitFailed {st module error seen} (fresh : module ∉ seen)
      (h : (s.record module).state = .failed error) :
      Move s st (.visit module seen) st (.visited (.error error) (module :: seen))
  | visitExecuted {st module seen} (fresh : module ∉ seen)
      (h : (s.record module).state = .executed) :
      Move s st (.visit module seen) st (.visited (.ok none) (module :: seen))
  | visitExecuting {st module seen} (fresh : module ∉ seen)
      (h : (s.record module).state = .executing) :
      Move s st (.visit module seen) st
        (.visited (.ok (s.record module).evaluation) (module :: seen))
  | visitUnlinked {st module seen} (fresh : module ∉ seen)
      (h : (s.record module).state = .unlinked ∨ (s.record module).state = .instantiating) :
      Move s st (.visit module seen) st (.visited (.ok none) (module :: seen))
  | visitWaiting {st module job seen} (fresh : module ∉ seen)
      (h : (s.record module).state = .linked) (h' : (s.record module).evaluation = some job) :
      Move s st (.visit module seen) st (.visited (.ok (some job)) (module :: seen))
  | turnVisits {st c module dependency rest jobs seen st'}
      (way : Turn s st c module (dependency :: rest) jobs seen st') :
      Move s st c (.visiting module rest jobs :: st') (.visit dependency seen)
  | attempted {st module job seen} : Move s (.executing module job seen :: st)
      (.polled (some (.ok ()))) st (.visited (.ok none) seen)
  | attemptFailed {st module job seen error} : Move s (.executing module job seen :: st)
      (.polled (some (.error error))) st (.visited (.error error) seen)
  | graphAborted {st error seen} : Move s (.executingGraph :: st) (.visited (.error error) seen) st
      (.ended (.error error))
  | graphExecuted {st seen} : Move s (.executingGraph :: st) (.visited (.ok none) seen) st
      (.ended (.ok ()))
  | graphSuspended {st job seen} : Move s (.executingGraph :: st) (.visited (.ok (some job)) seen)
      st (.work (.awaitEvaluation job))
  | evaluation {st job} : Move s st (.work (.awaitEvaluation job)) (.evaluating job :: st)
      (.poll job)
  | evaluationWaits {st job} : Move s (.evaluating job :: st) (.polled none) st
      (.paused (.awaitEvaluation job))
  | evaluationEnds {st job outcome} : Move s (.evaluating job :: st) (.polled (some outcome)) st
      (.ended outcome)
  | bodyOrphaned {st module} (dead : s.isAlive module = false) :
      Move s st (.work (.runBody module none)) st (.ended (.error .loaderDropped))
  | bodyResumes {st module code} : Move s st (.work (.awaitBody module code)) (.body module :: st)
      (.host code)
  -- Giving up
  | unwound : Move s [] .unwind [] (.reply .aborted)
  | unwinds {frame st} (h : ∀ setter, frame ≠ .setter setter) (h' : ∀ job, frame ≠ .advancing job)
      (h'' : frame ≠ .draining) : Move s (frame :: st) .unwind st .unwind

/-! ### Rules -/

/-- How a machine goes on. -/
inductive Rule (host : Host C M) : Machine C M → Machine C M → Prop
  | move {s : Store C} {memory : M} {st c st' c'} (h : Move s st c st' c') :
      Rule host ⟨s, memory, st, c⟩ ⟨s, memory, st', c'⟩
  -- Host code
  | asks {s memory memory' st code request next}
      (h : host.step s memory code = (memory', .ask request next)) :
      Rule host ⟨s, memory, st, .host code⟩ ⟨s, memory', .asking next :: st, .serve request⟩
  | givesUp {s memory memory' st code} (h : host.step s memory code = (memory', .abort)) :
      Rule host ⟨s, memory, st, .host code⟩ ⟨s, memory', st, .unwind⟩
  | hookWaits {s memory memory' st module code signal next} (l : Listener)
      (h : host.step s memory code = (memory', .wait signal next)) :
      Rule host ⟨s, memory, .hook module :: st, .host code⟩
        ⟨signal.elim s fun name => s.await name l, memory', st, .paused (.awaitHook module next)⟩
  | bodyWaits {s memory memory' st module code signal next} (l : Listener)
      (h : host.step s memory code = (memory', .wait signal next)) :
      Rule host ⟨s, memory, .body module :: st, .host code⟩
        ⟨signal.elim s fun name => s.await name l, memory', st, .paused (.awaitBody module next)⟩
  | setterWaits {s memory memory' st setter code signal next}
      (h : host.step s memory code = (memory', .wait signal next)) :
      Rule host ⟨s, memory, .setter setter :: st, .host code⟩
        ⟨s.markSetter setter false, memory', st, .drain⟩
  | setterEnds {s memory memory' st setter code result}
      (h : host.step s memory code = (memory', .finish result)) :
      Rule host ⟨s, memory, .setter setter :: st, .host code⟩
        ⟨s.markSetter setter false, memory', st, .drain⟩
  | hookOrphaned {s memory memory' st module code result}
      (h : host.step s memory code = (memory', .finish result)) (dead : s.isAlive module = false) :
      Rule host ⟨s, memory, .hook module :: st, .host code⟩
        ⟨s, memory', st, .ended (.error .loaderDropped)⟩
  | hookFails {s memory memory' st module code result reason error}
      (h : host.step s memory code = (memory', .finish result)) (alive : s.isAlive module = true)
      (invalid : result.bind Registration.validate = .error reason)
      (own : error = .instantiation (s.record module).url (s.record module).firstReferrer reason) :
      Rule host ⟨s, memory, .hook module :: st, .host code⟩
        ⟨(s.fail module error).1, memory', st, .ended (.error (s.fail module error).2)⟩
  | hookTooLate {s memory memory' st module code result registration error}
      (h : host.step s memory code = (memory', .finish result)) (alive : s.isAlive module = true)
      (valid : result.bind Registration.validate = .ok registration)
      (failed : (s.record module).state = .failed error) :
      Rule host ⟨s, memory, .hook module :: st, .host code⟩
        ⟨s, memory', st, .ended (.error error)⟩
  | hookEnds {s memory memory' st module code result registration}
      (h : host.step s memory code = (memory', .finish result)) (alive : s.isAlive module = true)
      (valid : result.bind Registration.validate = .ok registration)
      (sound : (s.record module).state.error? = none) :
      Rule host ⟨s, memory, .hook module :: st, .host code⟩
        ⟨s.adopt module registration, memory', st, .ended (.ok ())⟩
  | bodyOrphaned {s memory memory' st module code result}
      (h : host.step s memory code = (memory', .finish result)) (dead : s.isAlive module = false) :
      Rule host ⟨s, memory, .body module :: st, .host code⟩
        ⟨s.note (.bodyEnded module result.toOption.isSome), memory', st,
          .ended (.error .loaderDropped)⟩
  | bodyEnds {s memory memory' st module code registration}
      (h : host.step s memory code = (memory', .finish (.ok registration)))
      (alive : s.isAlive module = true) :
      Rule host ⟨s, memory, .body module :: st, .host code⟩
        ⟨((s.note (.bodyEnded module true)).setEvaluation module none).enter module .executed,
          memory', st, .ended (.ok ())⟩
  | bodyFails {s memory memory' st module code reason s' error}
      (h : host.step s memory code = (memory', .finish (.error reason)))
      (alive : s.isAlive module = true)
      (after : s' = (s.note (.bodyEnded module false)).setEvaluation module none)
      (own : error = .execution (s.record module).url (s.record module).firstReferrer reason) :
      Rule host ⟨s, memory, .body module :: st, .host code⟩
        ⟨(s'.fail module error).1, memory', st, .ended (.error (s'.fail module error).2)⟩
  -- Requests
  | publishesSame {s memory st module entries} (alive : s.isAlive module = true)
      (same : ((s.record module).exportAll entries).2 = false) :
      Rule host ⟨s, memory, st, .serve (.publish module entries)⟩
        ⟨s.update module fun _ => ((s.record module).exportAll entries).1, memory, st,
          .reply .done⟩
  | publishes {s memory st module entries s₁ s₂ st' c'} (alive : s.isAlive module = true)
      (changed : ((s.record module).exportAll entries).2 = true)
      (after : s₁ = (s.update module fun _ => ((s.record module).exportAll entries).1).note
        (.changed module))
      (way : Propagates s₁ ((s.record module).exportAll entries).1.importerSetters module
        (.publishing :: st) s₂ st' c') :
      Rule host ⟨s, memory, st, .serve (.publish module entries)⟩ ⟨s₂, memory, st', c'⟩
  | starts {s memory st request url referrer}
      (h : s.target? request = some (.ok (url, referrer))) :
      Rule host ⟨s, memory, st, .serve request⟩
        ⟨(importRecord (s.getOrCreate url referrer).1 (s.getOrCreate url referrer).2).1, memory, st,
          .reply (.started
            (importRecord (s.getOrCreate url referrer).1 (s.getOrCreate url referrer).2).2)⟩
  | defines {s memory st url entries} :
      Rule host ⟨s, memory, st, .serve (.define url entries)⟩
        ⟨(s.define url entries).1, memory, st, .reply (.defined (s.define url entries).2)⟩
  | deletes {s memory st url} :
      Rule host ⟨s, memory, st, .serve (.delete url)⟩
        ⟨(s.delete url).1, memory, st, .reply (.deleted (s.delete url).2)⟩
  -- Notifications
  | drained {s memory st} (h : s.queue = []) :
      Rule host ⟨s, memory, .draining :: st, .drain⟩
        ⟨s.setQueue [] false, memory, st, .drained⟩
  | forgets {s memory st setter module queue} (h : s.queue = (setter, module) :: queue)
      (unknown : s.setters[setter]? = none) :
      Rule host ⟨s, memory, .draining :: st, .drain⟩
        ⟨s.setQueue queue s.draining, memory, .draining :: st, .drain⟩
  | skips {s memory st setter module queue code} (h : s.queue = (setter, module) :: queue)
      (known : s.setters[setter]? = some code) (running : code.isRunning = true) :
      Rule host ⟨s, memory, .draining :: st, .drain⟩
        ⟨(s.setQueue queue s.draining).note (.skipped setter module), memory, .draining :: st, .drain⟩
  | calls {s memory st setter module queue code} (h : s.queue = (setter, module) :: queue)
      (known : s.setters[setter]? = some code) (idle : code.isRunning = false) :
      Rule host ⟨s, memory, .draining :: st, .drain⟩
        ⟨((s.setQueue queue s.draining).markSetter setter true).note (.called setter module), memory,
          .setter setter :: .draining :: st, .host (code.run module)⟩
  -- Jobs
  | pollRunning {s memory st job} (l : Listener) (h : (s.job job).state = .running)
      (own : l = ear s st) :
      Rule host ⟨s, memory, st, .poll job⟩ ⟨s.subscribe job l, memory, st, .polled none⟩
  | pollWaiting {s memory st job work} (l : Listener) (h : (s.job job).state = .waiting work)
      (own : l = ear s st) :
      Rule host ⟨s, memory, st, .poll job⟩
        ⟨(s.subscribe job l).setJob job .running, memory, .advancing job :: st, .work work⟩
  | putsAside {s memory st job work} :
      Rule host ⟨s, memory, .advancing job :: st, .paused work⟩
        ⟨s.setJob job (.waiting work), memory, st, .polled none⟩
  | endsJob {s memory st job outcome} :
      Rule host ⟨s, memory, .advancing job :: st, .ended outcome⟩
        ⟨s.finish job outcome, memory, st, .polled (some outcome)⟩
  -- Instantiating and linking a module
  | callsHook {s memory st module} (alive : s.isAlive module = true)
      (sound : (s.record module).state.error? = none) :
      Rule host ⟨s, memory, st, .work (.instantiate module)⟩
        ⟨(s.enter module .instantiating).note (.hookCalled module), memory, .hook module :: st,
          .host (host.instantiate { module, url := (s.record module).url
                                    referrer := (s.record module).firstReferrer })⟩
  | unresolved {s memory st module s' error} (alive : s.isAlive module = true)
      (sound : (s.record module).state.error? = none)
      (resolved : resolveDependencies (s.record module).url
        (s.update module fun r => { r with pendingSetters := [] })
        ((s.record module).specifiers.zip (s.record module).pendingSetters) = (s', .error error)) :
      Rule host ⟨s, memory, .linking module :: st, .polled (some (.ok ()))⟩
        ⟨(s'.fail module error).1, memory, st, .ended (.error (s'.fail module error).2)⟩
  | resolves {s memory st module s' dependencies} (alive : s.isAlive module = true)
      (sound : (s.record module).state.error? = none)
      (resolved : resolveDependencies (s.record module).url
        (s.update module fun r => { r with pendingSetters := [] })
        ((s.record module).specifiers.zip (s.record module).pendingSetters)
          = (s', .ok dependencies)) :
      Rule host ⟨s, memory, .linking module :: st, .polled (some (.ok ()))⟩
        ⟨(s'.newGroup dependencies.length).1, memory, st,
          .work (.awaitDependencies module dependencies s'.groups.size)⟩
  | joins {s memory st c module dependencies group s₁ st' dependency i g}
      (way : Joins s st c module dependencies group s₁ st')
      (h : (s₁.group group).next? dependencies = some (dependency, i, g)) :
      Rule host ⟨s, memory, st, c⟩
        ⟨s₁.setGroup group g, memory, .joining module dependencies group i :: st',
          .poll (s₁.record dependency.module).instantiation⟩
  | joinWaits {s memory st c module dependencies group s₁ st'}
      (way : Joins s st c module dependencies group s₁ st')
      (h : (s₁.group group).next? dependencies = none)
      (left : (s₁.group group).isOver = false) :
      Rule host ⟨s, memory, st, c⟩
        ⟨s₁, memory, st', .paused (.awaitDependencies module dependencies group)⟩
  | joinOrphaned {s memory st c module dependencies group s₁ st'}
      (way : Joins s st c module dependencies group s₁ st')
      (next : (s₁.group group).next? dependencies = none) (done : (s₁.group group).isOver = true)
      (dead : s₁.isAlive module = false) :
      Rule host ⟨s, memory, st, c⟩ ⟨s₁, memory, st', .ended (.error .loaderDropped)⟩
  | joinFails {s memory st c module dependencies group s₁ st' error}
      (way : Joins s st c module dependencies group s₁ st')
      (next : (s₁.group group).next? dependencies = none) (done : (s₁.group group).isOver = true)
      (alive : s₁.isAlive module = true) (h : (s₁.group group).failure? = some error) :
      Rule host ⟨s, memory, st, c⟩
        ⟨(s₁.fail module error).1, memory, st', .ended (.error (s₁.fail module error).2)⟩
  | handsOver {s memory st c module dependencies before rest dependency setter s₁ st' s₂ st'' c''}
      (silent : ∀ d ∈ before, d.setter ≠ none → ¬ (s₁.record d.module).IsVisible)
      (way : HandsOver s st c module dependencies (before ++ dependency :: rest) s₁ st')
      (h : dependency.setter = some setter)
      (after : Propagates ((before ++ [dependency]).foldl Store.listen s₁) [setter]
        dependency.module (.handingOver module dependencies rest :: st') s₂ st'' c'') :
      Rule host ⟨s, memory, st, c⟩ ⟨s₂, memory, st'', c''⟩
  | handedOver {s memory st c module dependencies rest s₁ st'}
      (silent : ∀ d ∈ rest, d.setter ≠ none → ¬ (s₁.record d.module).IsVisible)
      (way : HandsOver s st c module dependencies rest s₁ st') :
      Rule host ⟨s, memory, st, c⟩
        ⟨(rest.foldl Store.listen s₁).attach module dependencies, memory, st', .ended (.ok ())⟩
  -- Linking a graph
  | nodeLinked {s memory st module seen} (alive : s.isAlive module = true) :
      Rule host ⟨s, memory, .linkingNode module seen :: st, .polled (some (.ok ()))⟩
        ⟨(s.newGroup (s.record module).dependencies.length).1, memory, st,
          .link (.join module ((s.record module).dependencies.map .start) s.groups.size) seen⟩
  | gathers {s memory st c module children group seen s₁ st' child i g}
      (way : Gathers s st c module children group seen s₁ st')
      (clean : (s₁.group group).failure? = none)
      (h : (s₁.group group).next? children = some (child, i, g)) :
      Rule host ⟨s, memory, st, c⟩
        ⟨s₁.setGroup group g, memory, .linkingChildren module children group i :: st',
          .link child seen⟩
  | gatherWaits {s memory st c module children group seen s₁ st'}
      (way : Gathers s st c module children group seen s₁ st')
      (clean : (s₁.group group).failure? = none)
      (h : (s₁.group group).next? children = none) (left : (s₁.group group).isOver = false) :
      Rule host ⟨s, memory, st, c⟩
        ⟨s₁, memory, st', .linked (.ok (some (.join module children group))) seen⟩
  | gathered {s memory st c module children group seen s₁ st'}
      (way : Gathers s st c module children group seen s₁ st')
      (clean : (s₁.group group).failure? = none)
      (done : (s₁.group group).isOver = true) :
      Rule host ⟨s, memory, st, c⟩ ⟨s₁, memory, st', .linked (.ok none) seen⟩
  | gatherOrphaned {s memory st c module children group seen s₁ st' error}
      (way : Gathers s st c module children group seen s₁ st')
      (dead : s₁.isAlive module = false) (h : (s₁.group group).failure? = some error) :
      Rule host ⟨s, memory, st, c⟩ ⟨s₁, memory, st', .linked (.error .loaderDropped) seen⟩
  | gatherFails {s memory st c module children group seen s₁ st' error}
      (way : Gathers s st c module children group seen s₁ st')
      (alive : s₁.isAlive module = true) (h : (s₁.group group).failure? = some error) :
      Rule host ⟨s, memory, st, c⟩
        ⟨(s₁.fail module error).1, memory, st', .linked (.error (s₁.fail module error).2) seen⟩
  -- Executing a graph
  | turnDeferred {s memory st c module jobs seen st'}
      (way : Turn s st c module [] jobs seen st') (h : jobs ≠ []) :
      Rule host ⟨s, memory, st, c⟩
        ⟨(((s.newGroup jobs.length).1.newJob
            (.waiting (.executeAfter module jobs s.groups.size))).1).setEvaluation module
            (some s.jobs.size), memory, st', .visited (.ok (some s.jobs.size)) seen⟩
  | turnComes {s memory st c module seen st'} (way : Turn s st c module [] [] seen st') :
      Rule host ⟨s, memory, st, c⟩
        ⟨((s.takeTurn module).newJob
            (.waiting (.runBody module (s.record module).body))).1,
          memory, .executing module s.jobs.size seen :: st', .poll s.jobs.size⟩
  | attemptWaits {s memory st module job seen} :
      Rule host ⟨s, memory, .executing module job seen :: st, .polled none⟩
        ⟨s.setEvaluation module (some job), memory, st, .visited (.ok (some job)) seen⟩
  | visitFails {s memory st module rest jobs error seen} :
      Rule host ⟨s, memory, .visiting module rest jobs :: st, .visited (.error error) seen⟩
        ⟨(s.fail module error).1, memory, st, .visited (.error (s.fail module error).2) seen⟩
  | collects {s memory st c module jobs group s₁ st' job i g}
      (way : Collects s st c module jobs group s₁ st')
      (clean : (s₁.group group).failure? = none)
      (h : (s₁.group group).next? jobs = some (job, i, g)) :
      Rule host ⟨s, memory, st, c⟩
        ⟨s₁.setGroup group g, memory, .executingAfter module jobs group i :: st', .poll job⟩
  | collectWaits {s memory st c module jobs group s₁ st'}
      (way : Collects s st c module jobs group s₁ st')
      (clean : (s₁.group group).failure? = none)
      (h : (s₁.group group).next? jobs = none) (left : (s₁.group group).isOver = false) :
      Rule host ⟨s, memory, st, c⟩ ⟨s₁, memory, st', .paused (.executeAfter module jobs group)⟩
  | collectOrphaned {s memory st c module jobs group s₁ st'}
      (way : Collects s st c module jobs group s₁ st')
      (dead : s₁.isAlive module = false) :
      Rule host ⟨s, memory, st, c⟩ ⟨s₁, memory, st', .ended (.error .loaderDropped)⟩
  | collectFails {s memory st c module jobs group s₁ st' error}
      (way : Collects s st c module jobs group s₁ st')
      (alive : s₁.isAlive module = true) (h : (s₁.group group).failure? = some error) :
      Rule host ⟨s, memory, st, c⟩
        ⟨(s₁.fail module error).1, memory, st', .ended (.error (s₁.fail module error).2)⟩
  | collectTooLate {s memory st c module jobs group s₁ st' error}
      (way : Collects s st c module jobs group s₁ st')
      (alive : s₁.isAlive module = true) (failed : (s₁.record module).state = .failed error) :
      Rule host ⟨s, memory, st, c⟩ ⟨s₁, memory, st', .ended (.error error)⟩
  | collected {s memory st c module jobs group s₁ st'}
      (way : Collects s st c module jobs group s₁ st')
      (clean : (s₁.group group).failure? = none) (done : (s₁.group group).isOver = true)
      (alive : s₁.isAlive module = true)
      (sound : (s₁.record module).state.error? = none) :
      Rule host ⟨s, memory, st, c⟩
        ⟨s₁.takeTurn module, memory, st',
          .work (.runBody module (s₁.record module).body)⟩
  | bodyStarts {s memory st module code} :
      Rule host ⟨s, memory, st, .work (.runBody module (some code))⟩
        ⟨s.note (.bodyStarted module), memory, .body module :: st, .host code⟩
  | bodyless {s memory st module} (alive : s.isAlive module = true) :
      Rule host ⟨s, memory, st, .work (.runBody module none)⟩
        ⟨(s.setEvaluation module none).enter module .executed, memory, st, .ended (.ok ())⟩
  -- Giving up
  | drainAborted {s memory st} :
      Rule host ⟨s, memory, .draining :: st, .unwind⟩
        ⟨s.setQueue [] false, memory, st, .unwind⟩
  | setterAborted {s memory st setter} :
      Rule host ⟨s, memory, .setter setter :: st, .unwind⟩
        ⟨s.markSetter setter false, memory, st, .unwind⟩
  | jobAborted {s memory st job} :
      Rule host ⟨s, memory, .advancing job :: st, .unwind⟩
        ⟨s.setJob job .abandoned, memory, st, .unwind⟩

/-! ### Steps follow the rules -/

/-- Whether a control belongs to the activity that it is handed to. -/
def Belongs : Control C → List (Frame C) → Prop
  | .host _, .hook _ :: _ | .host _, .body _ :: _ | .host _, .setter _ :: _ => True
  | .reply _, .asking _ :: _ => True
  | .drain, .draining :: _ => True
  | .drained, .publishing :: _ | .drained, .handingOver .. :: _ => True
  | .polled _, .importing _ :: _ | .polled _, .linking _ :: _ | .polled _, .joining .. :: _
  | .polled _, .linkingNode .. :: _ | .polled _, .executing .. :: _ | .polled _, .evaluating _ :: _
  | .polled _, .executingAfter .. :: _ => True
  | .paused _, .advancing _ :: _ | .ended _, .advancing _ :: _ => True
  | .linked .., .linkingGraph _ :: _ | .linked .., .linkingChildren .. :: _ => True
  | .visited .., .executingGraph :: _ | .visited .., .visiting .. :: _ => True
  | .serve _, _ | .poll _, _ | .work _, _ | .link .., _ | .visit .., _ | .unwind, _ => True
  | _, _ => False

section Steps

variable {host : Host C M} {s s₁ : Store C} {memory : M} {st st' : List (Frame C)}
  {c c' : Control C} {module : RecordId} {group : GroupId}

/-- Who is told is a matter of which groups are waited for as many. -/
theorem ear_congr (many : ∀ g, (s₁.group g).isMany = (s.group g).isMany) : ear s₁ st = ear s st := by
  have same : Frame.listener? s₁ = Frame.listener? s := by
    funext frame
    cases frame <;> simp only [Frame.listener?, many]
  rw [ear, ear, same]

theorem settleMember_eq (m : Machine C M) (group : GroupId) (i : Nat) (outcome : Option Outcome) :
    m.settleMember group i outcome =
      { m with store := m.store.settle group i outcome (ear m.store m.stack) } := by
  match outcome with
  | some (.ok ()) => rfl
  | some (.error error) => rfl
  | none =>
    have same : ear (m.store.setGroup group (m.store.group group).memberWaits) m.stack =
        ear m.store m.stack := by
      refine ear_congr fun g => ?_
      rw [Store.group_setGroup]
      split_ifs with h
      · rw [h.1]
        rfl
      · rfl
    simp only [settleMember, Store.settle, mapStore, listener, ← same]
    split <;> rfl

theorem propagate_propagates (m : Machine C M) (setters : List SetterId) (module : RecordId) :
    ∃ s st c, m.propagate setters module = ⟨s, m.memory, st, c⟩ ∧
      Propagates m.store setters module m.stack s st c := by
  cases h : m.store.draining with
  | true =>
    refine ⟨m.store.raise setters module, m.stack, .drained, ?_, .queued h⟩
    simp [propagate, Store.raise, h]
  | false =>
    refine ⟨_, .draining :: m.stack, .drain, ?_, .delivered h⟩
    simp [propagate, Store.raise, Store.setQueue, push, h]

theorem handOver_cons_none (m : Machine C M) {dependencies rest : List Dependency}
    {dependency : Dependency} (h : dependency.setter = none) :
    m.handOver module dependencies (dependency :: rest) = m.handOver module dependencies rest := by
  simp only [handOver, h]

theorem handOver_cons_some (m : Machine C M) {dependencies rest : List Dependency}
    {dependency : Dependency} {setter : SetterId} (h : dependency.setter = some setter) :
    m.handOver module dependencies (dependency :: rest) =
      if ((m.store.listen dependency).record dependency.module).hasExported ||
          ((m.store.listen dependency).record dependency.module).state = .executed then
        (({ m with store := m.store.listen dependency }).push
          (.handingOver module dependencies rest) .drained).propagate [setter] dependency.module
      else ({ m with store := m.store.listen dependency }).handOver module dependencies rest := by
  simp only [handOver, h, Store.listen, mapStore]
  rfl

theorem isVisible_listen {dependency : Dependency} {r : RecordId} :
    ((s.listen dependency).record r).IsVisible = (s.record r).IsVisible := by
  unfold Store.listen
  split
  · rfl
  · exact Store.record_update_keeps Record.IsVisible fun _ => rfl

theorem isVisible_foldl_listen (dependencies : List Dependency) {r : RecordId} :
    ((dependencies.foldl Store.listen s).record r).IsVisible = (s.record r).IsVisible := by
  induction dependencies generalizing s with
  | nil => rfl
  | cons dependency rest ih => rw [List.foldl_cons, ih, isVisible_listen]

/-- Handing over setters follows a rule, when some have been passed over already. -/
private theorem handOver_rule_from {dependencies before rest : List Dependency}
    (silent : ∀ d ∈ before, d.setter ≠ none → ¬ (s₁.record d.module).IsVisible)
    (way : HandsOver s st c module dependencies (before ++ rest) s₁ st') :
    Rule host ⟨s, memory, st, c⟩
      (handOver ⟨before.foldl Store.listen s₁, memory, st', c'⟩ module dependencies rest) := by
  induction rest generalizing before with
  | nil =>
    rw [List.append_nil] at way
    exact .handedOver silent way
  | cons dependency rest ih =>
    have way' : HandsOver s st c module dependencies (before ++ [dependency] ++ rest) s₁ st' := by
      simpa using way
    have next := fun silent => ih silent way'
    rw [List.foldl_append, List.foldl_cons, List.foldl_nil] at next
    cases h : dependency.setter with
    | none =>
      rw [handOver_cons_none _ h]
      simp only [Store.listen, h] at next
      refine next fun d hd => (List.mem_append.mp hd).elim (silent d) fun hd => ?_
      obtain rfl := List.mem_singleton.mp hd
      exact fun set => absurd h set
    | some setter =>
      rw [handOver_cons_some _ h]
      split_ifs with exported
      · obtain ⟨s₂, st'', c'', hm, hp⟩ := propagate_propagates
          (({ store := (before.foldl Store.listen s₁).listen dependency, memory
              stack := st', control := c' } : Machine C M).push
            (.handingOver module dependencies rest) .drained) [setter] dependency.module
        rw [hm]
        refine .handsOver silent way h ?_
        rw [List.foldl_append, List.foldl_cons, List.foldl_nil]
        exact hp
      · refine next fun d hd => (List.mem_append.mp hd).elim (silent d) fun hd _ => ?_
        obtain rfl := List.mem_singleton.mp hd
        rw [← isVisible_foldl_listen before, ← isVisible_listen]
        simpa [Record.IsVisible] using exported

theorem handOver_rule {dependencies rest : List Dependency}
    (way : HandsOver s st c module dependencies rest s₁ st') :
    Rule host ⟨s, memory, st, c⟩ (handOver ⟨s₁, memory, st', c'⟩ module dependencies rest) := by
  have way' : HandsOver s st c module dependencies ([] ++ rest) s₁ st' := way
  exact handOver_rule_from (by simp) way'

theorem joinDependencies_rule {dependencies : List Dependency}
    (way : Joins s st c module dependencies group s₁ st') :
    Rule host ⟨s, memory, st, c⟩
      (joinDependencies ⟨s₁, memory, st', c'⟩ module dependencies group) := by
  simp only [joinDependencies]
  split
  · exact .joins way ‹_›
  · rename_i next
    cases done : (s₁.group group).isOver with
    | false => exact .joinWaits way next done
    | true =>
      cases alive : s₁.isAlive module with
      | false => exact .joinOrphaned way next done alive
      | true =>
        simp only [Bool.not_true, Bool.false_eq_true, ↓reduceIte]
        split
        · exact .joinFails way next done alive ‹_›
        · exact handOver_rule (.starts way next done alive ‹_›)

theorem linkChildren_rule {children : List LinkNode} {seen : List RecordId}
    (way : Gathers s st c module children group seen s₁ st') :
    Rule host ⟨s, memory, st, c⟩
      (linkChildren ⟨s₁, memory, st', c'⟩ module children group seen) := by
  simp only [linkChildren]
  split
  · cases alive : s₁.isAlive module with
    | false => exact .gatherOrphaned way alive ‹_›
    | true => exact .gatherFails way alive ‹_›
  · exact .gathers way ‹_› ‹_›
  · cases done : (s₁.group group).isOver with
    | false => exact .gatherWaits way ‹_› ‹_› done
    | true => exact .gathered way ‹_› done

theorem executeAfter_rule {jobs : List JobId}
    (way : Collects s st c module jobs group s₁ st') :
    Rule host ⟨s, memory, st, c⟩ (executeAfter ⟨s₁, memory, st', c'⟩ module jobs group) := by
  simp only [executeAfter]
  split
  · cases alive : s₁.isAlive module with
    | false => exact .collectOrphaned way alive
    | true => exact .collectFails way alive ‹_›
  · exact .collects way ‹_› ‹_›
  · rename_i clean next
    cases done : (s₁.group group).isOver with
    | false => exact .collectWaits way clean next done
    | true =>
      cases alive : s₁.isAlive module with
      | false => exact .collectOrphaned way alive
      | true =>
        simp only [Bool.not_true, Bool.false_eq_true, ↓reduceIte]
        cases h : (s₁.record module).state.error? with
        | some error =>
          simp only [Store.stateOf, h]
          exact .collectTooLate way alive (ModuleState.error?_eq_some.mp h)
        | none =>
          have next : Rule host ⟨s, memory, st, c⟩ _ := .collected way clean done alive h
          simpa [Store.stateOf, h, Store.takeTurn] using next

theorem visitDependencies_rule {rest : List RecordId} {jobs : List JobId} {seen : List RecordId}
    (way : Turn s st c module rest jobs seen st') :
    Rule host ⟨s, memory, st, c⟩
      (visitDependencies ⟨s, memory, st', c'⟩ module rest jobs seen) := by
  match rest, jobs with
  | dependency :: rest, _ => exact .move (.turnVisits way)
  | [], [] =>
    have next : Rule host ⟨s, memory, st, c⟩ _ := .turnComes way
    simpa [visitDependencies, Store.takeTurn, push] using next
  | [], job :: jobs =>
    have next : Rule host ⟨s, memory, st, c⟩ _ := .turnDeferred way (List.cons_ne_nil job jobs)
    simpa [visitDependencies, Store.setEvaluation] using next

/-! #### Host code and requests -/

theorem endHook_rule {memory' : M} {code : C} {result : Except HostError (Registration C)}
    (h : host.step s memory code = (memory', .finish result)) :
    Rule host ⟨s, memory, .hook module :: st, .host code⟩
      (endHook ⟨s, memory', st, c'⟩ module result) := by
  cases alive : s.isAlive module with
  | false => simpa [endHook, next, failModule, alive] using Rule.hookOrphaned h alive
  | true =>
    cases valid : result.bind Registration.validate with
    | error reason =>
      simpa [endHook, next, failModule, alive, valid] using Rule.hookFails h alive valid rfl
    | ok registration =>
      cases failed : (s.record module).state.error? with
      | some error =>
        simpa [endHook, next, failModule, alive, valid, Store.stateOf, failed] using
          Rule.hookTooLate h alive valid (ModuleState.error?_eq_some.mp failed)
      | none =>
        simpa [endHook, next, failModule, alive, valid, Store.stateOf, failed, Store.adopt] using
          Rule.hookEnds h alive valid failed

theorem endBody_rule {memory' : M} {code : C} {result : Except HostError (Registration C)}
    (h : host.step s memory code = (memory', .finish result)) :
    Rule host ⟨s, memory, .body module :: st, .host code⟩
      (endBody ⟨s.note (.bodyEnded module result.toOption.isSome), memory', st, c'⟩ module
        (result.map fun _ => ())) := by
  cases alive : s.isAlive module with
  | false =>
    simpa [endBody, next, alive] using Rule.bodyOrphaned h alive
  | true =>
    cases result with
    | ok registration =>
      simpa [endBody, next, mapStore, failModule, alive, Except.map, Except.toOption, Store.setEvaluation] using
        Rule.bodyEnds h alive
    | error reason =>
      simpa [endBody, next, mapStore, failModule, alive, Except.map, Except.toOption, Store.setEvaluation] using
        Rule.bodyFails h alive rfl rfl

theorem runHost_rule {code : C} (h : Belongs (.host code) st) :
    Rule host ⟨s, memory, st, .host code⟩ (runHost host ⟨s, memory, st, .host code⟩ code) := by
  rcases hstep : host.step s memory code with ⟨memory', action⟩
  match action with
  | .ask request next => simpa [runHost, hstep, push] using Rule.asks hstep
  | .abort => simpa [runHost, hstep, next] using Rule.givesUp hstep
  | .finish result =>
    match st, h with
    | .hook module :: st, _ => simpa [runHost, hstep, hostEnds, pop] using endHook_rule hstep
    | .body module :: st, _ =>
      simpa [runHost, hstep, hostEnds, pop, mapStore] using endBody_rule hstep
    | .setter setter :: st, _ =>
      simpa [runHost, hstep, hostEnds, pop, mapStore] using Rule.setterEnds hstep
  | .wait signal code' =>
    match st, h with
    | .hook module :: st, _ =>
      simpa [runHost, hstep, hostWaits, pop, mapStore] using Rule.hookWaits _ hstep
    | .body module :: st, _ =>
      simpa [runHost, hstep, hostWaits, pop, mapStore] using Rule.bodyWaits _ hstep
    | .setter setter :: st, _ =>
      simpa [runHost, hstep, hostWaits, pop, mapStore] using Rule.setterWaits hstep

theorem publish_rule {entries : List (String × Value)} :
    Rule host ⟨s, memory, st, .serve (.publish module entries)⟩
      (publish ⟨s, memory, st, .serve (.publish module entries)⟩ module entries) := by
  cases alive : s.isAlive module with
  | false => simpa [publish, alive, next] using Rule.move (Move.publishRefused alive)
  | true =>
    cases changed : ((s.record module).exportAll entries).2 with
    | false =>
      simpa [publish, alive, changed, next, mapStore] using Rule.publishesSame alive changed
    | true =>
      obtain ⟨s₂, st'', c'', hm, hp⟩ := propagate_propagates
        (({ store := (s.update module fun _ => ((s.record module).exportAll entries).1).note
              (.changed module), memory, stack := st
            control := .serve (.publish module entries) } : Machine C M).push
          .publishing .drained) ((s.record module).exportAll entries).1.importerSetters module
      have next : Rule host ⟨s, memory, st, .serve (.publish module entries)⟩ _ :=
        .publishes alive changed rfl hp
      simp only [push] at hm
      simpa [publish, alive, changed, mapStore, push, hm] using next

theorem startImport_rule {request : Request} {specifier : String} {referrer : Option Url}
    (h : s.target? request = some ((s.resolve specifier referrer).map (·, referrer))) :
    Rule host ⟨s, memory, st, .serve request⟩
      (startImport ⟨s, memory, st, .serve request⟩ specifier referrer) := by
  cases resolved : s.resolve specifier referrer with
  | error error =>
    rw [resolved] at h
    simpa [startImport, resolved, next] using Rule.move (Move.refused h)
  | ok url =>
    rw [resolved] at h
    simpa [startImport, resolved] using Rule.starts h

theorem serve_rule {request : Request} :
    Rule host ⟨s, memory, st, .serve request⟩
      (serve ⟨s, memory, st, .serve request⟩ request) := by
  match request with
  | .publish module entries => exact publish_rule
  | .start specifier referrer =>
    cases h : s.hasLoader with
    | false =>
      simpa [serve, h, next] using Rule.move (Move.refused (by simp [Store.target?, h]))
    | true => simpa [serve, h] using startImport_rule (by simp [Store.target?, h])
  | .startFrom module specifier =>
    cases h : s.isAlive module with
    | false =>
      simpa [serve, h, next] using Rule.move (Move.refused (by simp [Store.target?, h]))
    | true => simpa [serve, h] using startImport_rule (by simp [Store.target?, h])
  | .poll (.failed error) => exact .move .pollFailed
  | .poll (.executed module) => exact .move .pollExecuted
  | .poll (.waiting module job) => exact .move .pollWaiting
  | .define url entries => exact .defines
  | .delete url => exact .deletes

/-! #### Jobs -/

theorem drain_rule :
    Rule host ⟨s, memory, .draining :: st, .drain⟩
      (drain ⟨s, memory, .draining :: st, .drain⟩ st) := by
  match h : s.queue with
  | [] => simpa [drain, h, pop, Store.setQueue] using Rule.drained h
  | (setter, module) :: queue =>
    match known : s.setters[setter]? with
    | none => simpa [drain, h, mapStore, known, Store.setQueue] using Rule.forgets h known
    | some code =>
      cases idle : code.isRunning with
      | true => simpa [drain, h, mapStore, known, idle, Store.setQueue] using Rule.skips h known idle
      | false =>
        simpa [drain, h, mapStore, known, idle, Store.setQueue, push] using Rule.calls h known idle

theorem poll_rule {job : JobId} :
    Rule host ⟨s, memory, st, .poll job⟩ (poll ⟨s, memory, st, .poll job⟩ job) := by
  cases h : (s.job job).state with
  | waiting work => simpa [poll, h, mapStore, push, listener, ear] using Rule.pollWaiting _ h rfl
  | running => simpa [poll, h, mapStore, next, listener, ear] using Rule.pollRunning _ h rfl
  | finished outcome => simpa [poll, h, next] using Rule.move (Move.pollFinished h)
  | abandoned => simpa [poll, h, next] using Rule.move (Move.pollAbandoned h)

theorem callHook_rule :
    Rule host ⟨s, memory, st, .work (.instantiate module)⟩
      (callHook host ⟨s, memory, st, .work (.instantiate module)⟩ module) := by
  cases alive : s.isAlive module with
  | false => simpa [callHook, alive, next] using Rule.move (Move.hookOrphaned alive)
  | true =>
    cases h : (s.record module).state.error? with
    | some error =>
      simpa [callHook, alive, Store.stateOf, h, next] using
        Rule.move (Move.hookFailed alive (ModuleState.error?_eq_some.mp h))
    | none =>
      simpa [callHook, alive, Store.stateOf, h, mapStore, push] using Rule.callsHook alive h

theorem doWork_rule {work : Work C} :
    Rule host ⟨s, memory, st, .work work⟩ (doWork host ⟨s, memory, st, .work work⟩ work) := by
  match work with
  | .instantiate module => exact callHook_rule
  | .awaitHook module code => exact .move .hookResumes
  | .link module => exact .move .link
  | .awaitDependencies module dependencies group => exact joinDependencies_rule (.starts _ rfl)
  | .linkGraph module node seen => exact .move .linkGraph
  | .awaitEvaluation job => exact .move .evaluation
  | .executeAfter module jobs group => exact executeAfter_rule (.starts _ rfl)
  | .runBody module none =>
    cases alive : s.isAlive module with
    | false => simpa [doWork, endBody, alive, next] using Rule.move (Move.bodyOrphaned alive)
    | true =>
      simpa [doWork, endBody, alive, next, mapStore, Store.setEvaluation] using
        Rule.bodyless alive
  | .runBody module (some code) => exact .bodyStarts
  | .awaitBody module code => exact .move .bodyResumes

theorem linkInstantiated_rule :
    Rule host ⟨s, memory, .linking module :: st, .polled (some (.ok ()))⟩
      (linkInstantiated ⟨s, memory, st, .polled (some (.ok ()))⟩ module) := by
  cases alive : s.isAlive module with
  | false => simpa [linkInstantiated, alive, next] using Rule.move (Move.linkOrphaned alive)
  | true =>
    cases h : (s.record module).state.error? with
    | some error =>
      simpa [linkInstantiated, alive, h, next] using
        Rule.move (Move.linkFailed alive (ModuleState.error?_eq_some.mp h))
    | none =>
      rcases resolved : resolveDependencies (s.record module).url
        (s.update module fun r => { r with pendingSetters := [] })
        ((s.record module).specifiers.zip (s.record module).pendingSetters) with ⟨s', result⟩
      cases result with
      | error error =>
        simpa [linkInstantiated, alive, h, resolved, failModule] using
          Rule.unresolved alive h resolved
      | ok dependencies =>
        simpa [linkInstantiated, alive, h, resolved] using Rule.resolves alive h resolved

theorem linkedSelf_rule {seen : List RecordId} {outcome : Option Outcome} :
    Rule host ⟨s, memory, .linkingNode module seen :: st, .polled outcome⟩
      (linkedSelf ⟨s, memory, st, .polled outcome⟩ module seen outcome) := by
  match outcome with
  | none => exact .move .nodeWaits
  | some (.error error) => exact .move .nodeFails
  | some (.ok ()) =>
    cases alive : s.isAlive module with
    | false => simpa [linkedSelf, alive, next] using Rule.move (Move.nodeLeft alive)
    | true => simpa [linkedSelf, alive] using Rule.nodeLinked alive

theorem polled_rule {outcome : Option Outcome} (h : Belongs (.polled outcome) st) :
    Rule host ⟨s, memory, st, .polled outcome⟩
      (polled ⟨s, memory, st, .polled outcome⟩ outcome) := by
  match st, h with
  | .importing module :: st, _ => exact .move .imported
  | .linking module :: st, _ =>
    match outcome with
    | none => exact .move .linkWaits
    | some (.error error) => exact .move .linkFails
    | some (.ok ()) => exact linkInstantiated_rule
  | .joining module dependencies group i :: st, _ =>
    simp only [polled, pop, settleMember_eq]
    exact joinDependencies_rule (.settles _ rfl)
  | .linkingNode module seen :: st, _ => exact linkedSelf_rule
  | .executing module job seen :: st, _ =>
    match outcome with
    | none => exact .attemptWaits
    | some (.error error) => exact .move .attemptFailed
    | some (.ok ()) => exact .move .attempted
  | .evaluating job :: st, _ =>
    match outcome with
    | none => exact .move .evaluationWaits
    | some outcome => exact .move .evaluationEnds
  | .executingAfter module jobs group i :: st, _ =>
    simp only [polled, pop, settleMember_eq]
    exact executeAfter_rule (.settles _ rfl)

/-! #### Graphs -/

theorem linkNode_rule {node : LinkNode} {seen : List RecordId} :
    Rule host ⟨s, memory, st, .link node seen⟩
      (linkNode ⟨s, memory, st, .link node seen⟩ node seen) := by
  match node with
  | .start module =>
    by_cases fresh : module ∈ seen
    · simpa [linkNode, fresh, next] using Rule.move (Move.nodeSeen fresh)
    · cases alive : s.isAlive module with
      | false => simpa [linkNode, fresh, alive, next] using Rule.move (Move.nodeOrphaned fresh alive)
      | true =>
        cases h : (s.record module).state with
        | executed =>
          simpa [linkNode, fresh, alive, Store.stateOf, h, next] using
            Rule.move (Move.nodeExecuted fresh alive h)
        | failed error =>
          simpa [linkNode, fresh, alive, Store.stateOf, h, next] using
            Rule.move (Move.nodeFailed fresh alive h)
        | _ =>
          simpa [linkNode, fresh, alive, Store.stateOf, h, next] using
            Rule.move (Move.nodeEntered fresh alive (by simp [h]) (by simp [h]))
  | .awaitLinked module => exact .move .nodeLinks
  | .join module children group => exact linkChildren_rule (.starts _ rfl)

theorem linked_rule {result : Except LoaderError (Option LinkNode)} {seen : List RecordId}
    (h : Belongs (.linked result seen) st) :
    Rule host ⟨s, memory, st, .linked result seen⟩
      (step host ⟨s, memory, st, .linked result seen⟩) := by
  match st, h with
  | .linkingGraph module :: st, _ =>
    match result with
    | .error error => exact .move .graphFails
    | .ok (some node) => exact .move .graphWaits
    | .ok none =>
      cases alive : s.isAlive module with
      | false => simpa [step, linkedGraph, alive, pop, next] using Rule.move (Move.graphOrphaned alive)
      | true => simpa [step, linkedGraph, alive, pop, push] using Rule.move (Move.graphLinked alive)
  | .linkingChildren module children group i :: st, _ =>
    match result with
    | .ok (some child) =>
      simp only [step, linkedChild, pop, settleMember_eq]
      exact linkChildren_rule (.waits _ rfl)
    | .ok none =>
      simp only [step, linkedChild, pop, settleMember_eq]
      exact linkChildren_rule (.ends _ rfl)
    | .error error =>
      simp only [step, linkedChild, pop, settleMember_eq]
      exact linkChildren_rule (.fails _ rfl)

theorem visit_rule {seen : List RecordId} :
    Rule host ⟨s, memory, st, .visit module seen⟩
      (visit ⟨s, memory, st, .visit module seen⟩ module seen) := by
  by_cases fresh : module ∈ seen
  · simpa [visit, fresh, next] using Rule.move (Move.visitSeen fresh)
  · cases h : (s.record module).state with
    | failed error => simpa [visit, fresh, h, next] using Rule.move (Move.visitFailed fresh h)
    | executed => simpa [visit, fresh, h, next] using Rule.move (Move.visitExecuted fresh h)
    | executing => simpa [visit, fresh, h, next] using Rule.move (Move.visitExecuting fresh h)
    | unlinked =>
      simpa [visit, fresh, h, next] using Rule.move (Move.visitUnlinked fresh (.inl h))
    | instantiating =>
      simpa [visit, fresh, h, next] using Rule.move (Move.visitUnlinked fresh (.inr h))
    | linked =>
      cases idle : (s.record module).evaluation with
      | some job =>
        simpa [visit, fresh, h, idle, next] using Rule.move (Move.visitWaiting fresh h idle)
      | none =>
        simp only [visit, List.contains_eq_mem, fresh, h, idle, decide_false, Bool.false_eq_true,
          ↓reduceIte]
        exact visitDependencies_rule (.first fresh h idle)

theorem visited_rule {result : Except LoaderError (Option JobId)} {seen : List RecordId}
    (h : Belongs (.visited result seen) st) :
    Rule host ⟨s, memory, st, .visited result seen⟩
      (step host ⟨s, memory, st, .visited result seen⟩) := by
  match st, h with
  | .executingGraph :: st, _ =>
    match result with
    | .error error => exact .move .graphAborted
    | .ok none => exact .move .graphExecuted
    | .ok (some job) => exact .move .graphSuspended
  | .visiting module rest jobs :: st, _ =>
    match result with
    | .ok job => exact visitDependencies_rule .next
    | .error error => exact .visitFails

theorem unwind_rule :
    Rule host ⟨s, memory, st, .unwind⟩ (unwind ⟨s, memory, st, .unwind⟩) := by
  cases st with
  | nil => exact .move .unwound
  | cons frame st =>
    cases frame
    case draining => exact .drainAborted
    case setter => exact .setterAborted
    case advancing => exact .jobAborted
    all_goals exact .move (.unwinds (by simp) (by simp) (by simp))

/-- A step of a machine whose control belongs to its stack follows a rule. -/
theorem step_rule (m : Machine C M) (h : Belongs m.control m.stack) :
    Rule host m (m.step host) := by
  obtain ⟨s, memory, st, c⟩ := m
  match c, h with
  | .host code, h => exact runHost_rule h
  | .serve request, _ => exact serve_rule
  | .reply reply, h =>
    match st, h with
    | .asking next :: st, _ => exact .move .answered
  | .drain, h =>
    match st, h with
    | .draining :: st, _ => exact drain_rule
  | .drained, h =>
    match st, h with
    | .publishing :: st, _ => exact .move .published
    | .handingOver module dependencies rest :: st, _ => exact handOver_rule .resumes
  | .poll job, _ => exact poll_rule
  | .polled outcome, h => exact polled_rule h
  | .work work, _ => exact doWork_rule
  | .paused work, h =>
    match st, h with
    | .advancing job :: st, _ => exact .putsAside
  | .ended outcome, h =>
    match st, h with
    | .advancing job :: st, _ => exact .endsJob
  | .link node seen, _ => exact linkNode_rule
  | .linked result seen, h => exact linked_rule h
  | .visit module seen, _ => exact visit_rule
  | .visited result seen, h => exact visited_rule h
  | .unwind, _ => exact unwind_rule

end Steps

end Machine

end ModuleSystem.Loader
