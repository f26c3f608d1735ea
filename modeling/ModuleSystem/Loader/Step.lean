import ModuleSystem.Loader.Machine

/-!
# Steps of the loading machine

`Machine.step` makes one step. The functions before it are the steps of the several activities:
publishing exports and delivering notifications, starting imports, instantiating and linking a
module, linking a graph, executing a graph, and running host code. A machine that is at rest makes
no step.

* A notification is delivered at once if none is being delivered; else the delivery under way comes
  to it, in the order of the queue. So no setter runs within another.
* To link a module is to have all its dependencies instantiated and then to hand over its setters.
  Dependencies do not have to be linked themselves, so that cycles are no obstacle.
* A graph is linked as a whole before any of it is executed.
* A graph is executed depth first, dependencies before dependents, in the order of the
  registrations. A module that the walk has been at is not waited for, unless it has a job; this is
  what opens cycles. A module with dependencies that have to wait becomes a job of its own.
-/

namespace ModuleSystem.Loader

/-- A registration that has as many setters as dependencies. -/
def Registration.validate {C : Type} (r : Registration C) : Except HostError (Registration C) :=
  if r.setters.length = r.dependencies.length then .ok r
  else
    .error { message := "registration lists " ++ toString r.dependencies.length
      ++ " dependencies but " ++ toString r.setters.length ++ " setters" }

namespace Machine

variable {C M : Type}

/-! ### Notifications -/

/-- Queues notifications, and delivers them unless a delivery is under way. -/
def propagate (m : Machine C M) (setters : List SetterId) (module : RecordId) : Machine C M :=
  let store := m.store.raise setters module
  if store.draining then { m with store, control := .drained }
  else { m with store := { store with draining := true } }.push .draining .drain

/-- Delivers the next notification, or ends the delivery. -/
def drain (m : Machine C M) (stack : List (Frame C)) : Machine C M :=
  match m.store.queue with
  | [] => { m with store := { m.store with draining := false } }.pop stack .drained
  | (setter, module) :: queue =>
    let m := m.mapStore fun s => { s with queue }
    match m.store.setters[setter]? with
    | none => m
    | some code =>
      if code.isRunning then m.mapStore fun s => s.note (.skipped setter module)
      else
        (m.mapStore fun s => (s.markSetter setter true).note (.called setter module)).push
          (.setter setter) (.host (code.run module))

/-! ### Requests -/

/-- Publishes values in the namespace of a module, as long as its loader is there. -/
def publish (m : Machine C M) (module : RecordId) (entries : List (String × Value)) :
    Machine C M :=
  if !m.store.isAlive module then m.next (.reply .done)
  else
    let (r, changed) := (m.store.record module).exportAll entries
    let m := m.mapStore fun s => s.update module fun _ => r
    if changed then
      ((m.mapStore fun s => s.note (.changed module)).push .publishing .drained).propagate
        r.importerSetters module
    else m.next (.reply .done)

/-- The handle of an import of a record, whose job is made if need be. -/
def importRecord (s : Store C) (module : RecordId) : Store C × ImportHandle :=
  let r := s.record module
  match r.state with
  | .failed error => (s, .failed error)
  | .executed => (s, .executed module)
  | _ =>
    match r.topLevel with
    | some job => (s, .waiting module job)
    | none =>
      let (s, job) := s.newJob (.waiting (.linkGraph module (.start module) []))
      (s.update module fun r => { r with topLevel := some job }, .waiting module job)

/-- Starts an import: the module is registered at once, and all else is left to its job. -/
def startImport (m : Machine C M) (specifier : String) (referrer : Option Url) : Machine C M :=
  match m.store.resolve specifier referrer with
  | .error error => m.next (.reply (.started (.failed error)))
  | .ok url =>
    let (store, module) := m.store.getOrCreate url referrer
    let (store, handle) := importRecord store module
    { m with store, control := .reply (.started handle) }

/-- Serves a request. -/
def serve (m : Machine C M) : Request → Machine C M
  | .publish module entries => m.publish module entries
  | .start specifier referrer =>
    if m.store.hasLoader then m.startImport specifier referrer
    else m.next (.reply (.started (.failed .loaderDropped)))
  | .startFrom module specifier =>
    if m.store.isAlive module then m.startImport specifier (some (m.store.record module).url)
    else m.next (.reply (.started (.failed .loaderDropped)))
  | .poll (.failed error) => m.next (.reply (.progress (some (.error error))))
  | .poll (.executed module) => m.next (.reply (.progress (some (.ok module))))
  | .poll (.waiting module job) => m.push (.importing module) (.poll job)
  | .define url entries =>
    let (store, module) := m.store.define url entries
    { m with store, control := .reply (.defined module) }
  | .delete url =>
    let (store, wasRegistered) := m.store.delete url
    { m with store, control := .reply (.deleted wasRegistered) }

/-! ### Groups -/

/-- Starts an attempt at a group. -/
def startGroup (m : Machine C M) (group : GroupId) : Machine C M :=
  m.mapStore fun s => s.setGroup group ((s.group group).start m.listener)

/-- Takes over how a member of a group has ended, or that it has to wait. -/
def settleMember (m : Machine C M) (group : GroupId) (i : Nat) (outcome : Option Outcome) :
    Machine C M :=
  let g := m.store.group group
  match outcome with
  | some outcome =>
    let error := match outcome with
      | .error error => some error
      | .ok () => none
    m.mapStore fun s => s.setGroup group (g.memberEnded i error m.listener)
  | none =>
    let g := g.memberWaits
    let m := m.mapStore fun s => s.setGroup group g
    if g.isResting then m.mapStore fun s => (s.note (.rested group)).tell [m.listener] else m

/-! ### Instantiating and linking a module -/

/-- Calls the hook of a module. -/
def callHook (host : Host C M) (m : Machine C M) (module : RecordId) : Machine C M :=
  if !m.store.isAlive module then m.next (.ended (.error .loaderDropped))
  else
    match (m.store.stateOf module).error? with
    | some error => m.next (.ended (.error error))
    | none =>
      let r := m.store.record module
      let context : ModuleContext := { module, url := r.url, referrer := r.firstReferrer }
      (m.mapStore fun s => (s.enter module .instantiating).note (.hookCalled module)).push
        (.hook module) (.host (host.instantiate context))

/-- Takes over what the hook of a module ended with. -/
def endHook (m : Machine C M) (module : RecordId) (result : Except HostError (Registration C)) :
    Machine C M :=
  if !m.store.isAlive module then m.next (.ended (.error .loaderDropped))
  else
    match result.bind Registration.validate with
    | .error reason =>
      let r := m.store.record module
      m.failModule module (.instantiation r.url r.firstReferrer reason)
    | .ok registration =>
      match (m.store.stateOf module).error? with
      | some error => m.next (.ended (.error error))
      | none =>
        let (store, setters) := m.store.addSetters registration.setters
        let store := store.update module fun r =>
          { r with specifiers := registration.dependencies, pendingSetters := setters
                   body := registration.body }
        { m with store, control := .ended (.ok ()) }

/-- The dependencies of a module, whose records are made if need be, up to a specifier that has no
URL. -/
def resolveDependencies (url : Url) :
    Store C → List (String × Option SetterId) → Store C × Except LoaderError (List Dependency)
  | s, [] => (s, .ok [])
  | s, (specifier, setter) :: rest =>
    match s.resolve specifier (some url) with
    | .error error => (s, .error error)
    | .ok target =>
      let (s, module) := s.getOrCreate target (some url)
      let (s, others) := resolveDependencies url s rest
      (s, others.map ({ module, setter : Dependency } :: ·))

/-- Hands over the setters that are left of a module that is being linked. A setter is called at
once if there is anything to see. -/
def handOver (m : Machine C M) (module : RecordId) (dependencies : List Dependency) :
    List Dependency → Machine C M
  | [] =>
    let store := m.store.update module fun r =>
      { r with dependencies := dependencies.map Dependency.module
               dependencySetters := dependencies.map Dependency.setter }
    { m with store := store.enter module .linked, control := .ended (.ok ()) }
  | dependency :: rest =>
    match dependency.setter with
    | none => m.handOver module dependencies rest
    | some setter =>
      let m := m.mapStore fun s => s.update dependency.module fun r =>
        { r with importerSetters := r.importerSetters ++ [setter] }
      let r := m.store.record dependency.module
      if r.hasExported || r.state = .executed then
        (m.push (.handingOver module dependencies rest) .drained).propagate [setter]
          dependency.module
      else m.handOver module dependencies rest

/-- Goes on with the instantiation of the dependencies of a module; when all of it has ended, the
module can be linked. -/
def joinDependencies (m : Machine C M) (module : RecordId) (dependencies : List Dependency)
    (group : GroupId) : Machine C M :=
  let g := m.store.group group
  match g.next? dependencies with
  | some (dependency, i, g) =>
    (m.mapStore fun s => s.setGroup group g).push (.joining module dependencies group i)
      (.poll (m.store.record dependency.module).instantiation)
  | none =>
    if !g.isOver then m.next (.paused (.awaitDependencies module dependencies group))
    else if !m.store.isAlive module then m.next (.ended (.error .loaderDropped))
    else
      match g.failure? with
      | some error => m.failModule module error
      | none => m.handOver module dependencies dependencies

/-- Goes on with linking a module that is instantiated. -/
def linkInstantiated (m : Machine C M) (module : RecordId) : Machine C M :=
  if !m.store.isAlive module then m.next (.ended (.error .loaderDropped))
  else
    let r := m.store.record module
    match r.state.error? with
    | some error => m.next (.ended (.error error))
    | none =>
      let store := m.store.update module fun r => { r with pendingSetters := [] }
      let (store, resolved) := resolveDependencies r.url store (r.specifiers.zip r.pendingSetters)
      let m := { m with store }
      match resolved with
      | .error error => m.failModule module error
      | .ok dependencies =>
        let (store, group) := m.store.newGroup dependencies.length
        { m with store, control := .work (.awaitDependencies module dependencies group) }

/-! ### Linking a graph -/

/-- Goes on with the dependencies of a module. The error of one becomes an error of the module. -/
def linkChildren (m : Machine C M) (module : RecordId) (children : List LinkNode) (group : GroupId)
    (seen : List RecordId) : Machine C M :=
  let g := m.store.group group
  match g.failure?, g.next? children with
  | some error, _ =>
    if !m.store.isAlive module then m.next (.linked (.error .loaderDropped) seen)
    else
      let (store, error) := m.store.fail module error
      { m with store, control := .linked (.error error) seen }
  | none, some (child, i, g) =>
    (m.mapStore fun s => s.setGroup group g).push (.linkingChildren module children group i)
      (.link child seen)
  | none, none =>
    if g.isOver then m.next (.linked (.ok none) seen)
    else m.next (.linked (.ok (some (.join module children group))) seen)

/-- Goes on with a walk that links a graph. -/
def linkNode (m : Machine C M) (node : LinkNode) (seen : List RecordId) : Machine C M :=
  match node with
  | .start module =>
    if seen.contains module then m.next (.linked (.ok none) seen)
    else
      let seen := module :: seen
      if !m.store.isAlive module then m.next (.linked (.error .loaderDropped) seen)
      else
        match m.store.stateOf module with
        | .executed => m.next (.linked (.ok none) seen)
        | .failed error => m.next (.linked (.error error) seen)
        | _ => m.next (.link (.awaitLinked module) seen)
  | .awaitLinked module =>
    m.push (.linkingNode module seen) (.poll (m.store.record module).linking)
  | .join module children group => (m.startGroup group).linkChildren module children group seen

/-- Takes over that the linking of one module has been advanced. -/
def linkedSelf (m : Machine C M) (module : RecordId) (seen : List RecordId)
    (outcome : Option Outcome) : Machine C M :=
  match outcome with
  | none => m.next (.linked (.ok (some (.awaitLinked module))) seen)
  | some (.error error) => m.next (.linked (.error error) seen)
  | some (.ok ()) =>
    if !m.store.isAlive module then m.next (.linked (.error .loaderDropped) seen)
    else
      let children := (m.store.record module).dependencies.map .start
      let (store, group) := m.store.newGroup children.length
      { m with store, control := .link (.join module children group) seen }

/-- Takes over how a walk that links a graph ended, or has to wait, at a dependency. -/
def linkedChild (m : Machine C M) (module : RecordId) (children : List LinkNode) (group : GroupId)
    (i : Nat) (result : Except LoaderError (Option LinkNode)) (seen : List RecordId) :
    Machine C M :=
  match result with
  | .ok (some child) =>
    (m.settleMember group i none).linkChildren module (children.set i child) group seen
  | .ok none => (m.settleMember group i (some (.ok ()))).linkChildren module children group seen
  | .error error =>
    (m.settleMember group i (some (.error error))).linkChildren module children group seen

/-- Takes over how a walk that links a graph ended. If all of it is linked, it is executed. -/
def linkedGraph (m : Machine C M) (module : RecordId)
    (result : Except LoaderError (Option LinkNode)) (seen : List RecordId) : Machine C M :=
  match result with
  | .error error => m.next (.ended (.error error))
  | .ok (some node) => m.next (.paused (.linkGraph module node seen))
  | .ok none =>
    if !m.store.isAlive module then m.next (.ended (.error .loaderDropped))
    else m.push .executingGraph (.visit module [])

/-! ### Executing a graph -/

/-- Goes on with the dependencies of a module, of which those in `rest` are left, and executes the
module after them. -/
def visitDependencies (m : Machine C M) (module : RecordId) (rest : List RecordId)
    (jobs : List JobId) (seen : List RecordId) : Machine C M :=
  match rest with
  | dependency :: rest => m.push (.visiting module rest jobs) (.visit dependency seen)
  | [] =>
    if !jobs.isEmpty then
      let (store, group) := m.store.newGroup jobs.length
      let (store, job) := store.newJob (.waiting (.executeAfter module jobs group))
      let store := store.update module fun r => { r with evaluation := some job }
      { m with store, control := .visited (.ok (some job)) seen }
    else
      let store := m.store.enter module .executing
      let body := (store.record module).body
      let store := store.update module fun r => { r with body := none }
      let (store, job) := store.newJob (.waiting (.runBody module body))
      { m with store }.push (.executing module job seen) (.poll job)

/-- Goes on with a walk that executes a graph. -/
def visit (m : Machine C M) (module : RecordId) (seen : List RecordId) : Machine C M :=
  let r := m.store.record module
  if seen.contains module then m.next (.visited (.ok r.evaluation) seen)
  else
    let seen := module :: seen
    match r.state with
    | .failed error => m.next (.visited (.error error) seen)
    | .executed => m.next (.visited (.ok none) seen)
    | .executing => m.next (.visited (.ok r.evaluation) seen)
    | .unlinked => m.next (.visited (.ok none) seen)
    | .instantiating => m.next (.visited (.ok none) seen)
    | .linked =>
      match r.evaluation with
      | some job => m.next (.visited (.ok (some job)) seen)
      | none => m.visitDependencies module r.dependencies [] seen

/-- Takes over how a walk that executes a graph ended at a dependency. Its error becomes one of the
dependent. -/
def visitedDependency (m : Machine C M) (module : RecordId) (rest : List RecordId)
    (jobs : List JobId) (result : Except LoaderError (Option JobId)) (seen : List RecordId) :
    Machine C M :=
  match result with
  | .ok job => m.visitDependencies module rest (jobs ++ job.toList) seen
  | .error error =>
    let (store, error) := m.store.fail module error
    { m with store, control := .visited (.error error) seen }

/-- Takes over how the first attempt at the job of a module ended. -/
def attempted (m : Machine C M) (module : RecordId) (job : JobId) (seen : List RecordId)
    (outcome : Option Outcome) : Machine C M :=
  match outcome with
  | some (.ok ()) => m.next (.visited (.ok none) seen)
  | some (.error error) => m.next (.visited (.error error) seen)
  | none =>
    (m.mapStore fun s => s.update module fun r => { r with evaluation := some job }).next
      (.visited (.ok (some job)) seen)

/-- Takes over how a walk that executes a graph ended. -/
def visitedGraph (m : Machine C M) (result : Except LoaderError (Option JobId)) : Machine C M :=
  match result with
  | .error error => m.next (.ended (.error error))
  | .ok none => m.next (.ended (.ok ()))
  | .ok (some job) => m.next (.work (.awaitEvaluation job))

/-- Goes on with the jobs that a module waits for; when all of them have ended, the module is
executed. -/
def executeAfter (m : Machine C M) (module : RecordId) (jobs : List JobId) (group : GroupId) :
    Machine C M :=
  let g := m.store.group group
  match g.failure?, g.next? jobs with
  | some error, _ =>
    if m.store.isAlive module then m.failModule module error
    else m.next (.ended (.error .loaderDropped))
  | none, some (job, i, g) =>
    (m.mapStore fun s => s.setGroup group g).push (.executingAfter module jobs group i) (.poll job)
  | none, none =>
    if !g.isOver then m.next (.paused (.executeAfter module jobs group))
    else if !m.store.isAlive module then m.next (.ended (.error .loaderDropped))
    else
      match (m.store.stateOf module).error? with
      | some error => m.next (.ended (.error error))
      | none =>
        let store := m.store.enter module .executing
        let body := (store.record module).body
        let store := store.update module fun r => { r with body := none }
        { m with store, control := .work (.runBody module body) }

/-- Takes over how the body of a module ended, or that it has none. -/
def endBody (m : Machine C M) (module : RecordId) (result : Except HostError Unit) : Machine C M :=
  if !m.store.isAlive module then m.next (.ended (.error .loaderDropped))
  else
    let m := m.mapStore fun s => s.update module fun r => { r with evaluation := none }
    match result with
    | .ok () => (m.mapStore fun s => s.enter module .executed).next (.ended (.ok ()))
    | .error reason =>
      let r := m.store.record module
      m.failModule module (.execution r.url r.firstReferrer reason)

/-! ### Host code and jobs -/

/-- Takes over that host code waits. -/
def hostWaits (m : Machine C M) (signal : Option String) (code : C) : Machine C M :=
  let waiting := m.mapStore fun s => signal.elim s fun name => s.await name m.listener
  match m.stack with
  | .hook module :: stack => waiting.pop stack (.paused (.awaitHook module code))
  | .body module :: stack => waiting.pop stack (.paused (.awaitBody module code))
  | .setter setter :: stack => (m.mapStore fun s => s.markSetter setter false).pop stack .drain
  | _ => m

/-- Takes over what host code ended with. -/
def hostEnds (m : Machine C M) (result : Except HostError (Registration C)) : Machine C M :=
  match m.stack with
  | .hook module :: stack => (m.pop stack m.control).endHook module result
  | .body module :: stack =>
    let m := m.mapStore fun s => s.note (.bodyEnded module result.toOption.isSome)
    (m.pop stack m.control).endBody module (result.map fun _ => ())
  | .setter setter :: stack => (m.mapStore fun s => s.markSetter setter false).pop stack .drain
  | _ => m

/-- Makes a step of host code. -/
def runHost (host : Host C M) (m : Machine C M) (code : C) : Machine C M :=
  let (memory, action) := host.step m.store m.memory code
  let m := { m with memory }
  match action with
  | .ask request next => m.push (.asking next) (.serve request)
  | .wait signal code => m.hostWaits signal code
  | .finish result => m.hostEnds result
  | .abort => m.next .unwind

/-- Goes on with the work of the job that is being advanced. -/
def doWork (host : Host C M) (m : Machine C M) : Work C → Machine C M
  | .instantiate module => m.callHook host module
  | .awaitHook module code => m.push (.hook module) (.host code)
  | .link module => m.push (.linking module) (.poll (m.store.record module).instantiation)
  | .awaitDependencies module dependencies group =>
    (m.startGroup group).joinDependencies module dependencies group
  | .linkGraph module node seen => m.push (.linkingGraph module) (.link node seen)
  | .awaitEvaluation job => m.push (.evaluating job) (.poll job)
  | .executeAfter module jobs group => (m.startGroup group).executeAfter module jobs group
  | .runBody module none => m.endBody module (.ok ())
  | .runBody module (some code) =>
    (m.mapStore fun s => s.note (.bodyStarted module)).push (.body module) (.host code)
  | .awaitBody module code => m.push (.body module) (.host code)

/-- Advances a job, unless it is being advanced already. Whoever does so waits for the job from now
on. -/
def poll (m : Machine C M) (job : JobId) : Machine C M :=
  let subscribed := m.mapStore fun s => s.subscribe job m.listener
  match (m.store.job job).state with
  | .finished outcome => m.next (.polled (some outcome))
  | .running => subscribed.next (.polled none)
  | .waiting work =>
    (subscribed.mapStore fun s => s.setJob job .running).push (.advancing job) (.work work)
  | .abandoned => m.next .unwind

/-- Hands over how a job stands to the activity that advanced it. -/
def polled (m : Machine C M) (outcome : Option Outcome) : Machine C M :=
  match m.stack with
  | .importing module :: stack =>
    m.pop stack (.reply (.progress (outcome.map fun o => o.map fun _ => module)))
  | .linking module :: stack =>
    let m := m.pop stack m.control
    match outcome with
    | none => m.next (.paused (.link module))
    | some (.error error) => m.next (.ended (.error error))
    | some (.ok ()) => m.linkInstantiated module
  | .joining module dependencies group i :: stack =>
    let m := (m.pop stack m.control).settleMember group i outcome
    m.joinDependencies module dependencies group
  | .linkingNode module seen :: stack => (m.pop stack m.control).linkedSelf module seen outcome
  | .executing module job seen :: stack =>
    (m.pop stack m.control).attempted module job seen outcome
  | .evaluating job :: stack =>
    match outcome with
    | none => m.pop stack (.paused (.awaitEvaluation job))
    | some outcome => m.pop stack (.ended outcome)
  | .executingAfter module jobs group i :: stack =>
    let m := (m.pop stack m.control).settleMember group i outcome
    m.executeAfter module jobs group
  | _ => m

/-- Puts the job that is being advanced aside with what is left of it. -/
def putAside (m : Machine C M) (work : Work C) : Machine C M :=
  match m.stack with
  | .advancing job :: stack =>
    (m.mapStore fun s => s.setJob job (.waiting work)).pop stack (.polled none)
  | _ => m

/-- Ends the job that is being advanced. -/
def endJob (m : Machine C M) (outcome : Outcome) : Machine C M :=
  match m.stack with
  | .advancing job :: stack =>
    (m.mapStore fun s => s.finish job outcome).pop stack (.polled (some outcome))
  | _ => m

/-- Ends the innermost activity because host code gave up. -/
def unwind (m : Machine C M) : Machine C M :=
  match m.stack with
  | [] => m.next (.reply .aborted)
  | .draining :: stack =>
    (m.mapStore fun s => { s with draining := false, queue := [] }).pop stack .unwind
  | .setter setter :: stack => (m.mapStore fun s => s.markSetter setter false).pop stack .unwind
  | .advancing job :: stack => (m.mapStore fun s => s.setJob job .abandoned).pop stack .unwind
  | _ :: stack => m.pop stack .unwind

/-- Makes one step. -/
def step (host : Host C M) (m : Machine C M) : Machine C M :=
  match m.control with
  | .host code => m.runHost host code
  | .serve request => m.serve request
  | .reply reply =>
    match m.stack with
    | .asking next :: stack => m.pop stack (.host (next reply))
    | _ => m
  | .drain =>
    match m.stack with
    | .draining :: stack => m.drain stack
    | _ => m
  | .drained =>
    match m.stack with
    | .publishing :: stack => m.pop stack (.reply .done)
    | .handingOver module dependencies rest :: stack =>
      (m.pop stack m.control).handOver module dependencies rest
    | _ => m
  | .poll job => m.poll job
  | .polled outcome => m.polled outcome
  | .work work => m.doWork host work
  | .paused work => m.putAside work
  | .ended outcome => m.endJob outcome
  | .link node seen => m.linkNode node seen
  | .linked result seen =>
    match m.stack with
    | .linkingGraph module :: stack => (m.pop stack m.control).linkedGraph module result seen
    | .linkingChildren module children group i :: stack =>
      (m.pop stack m.control).linkedChild module children group i result seen
    | _ => m
  | .visit module seen => m.visit module seen
  | .visited result seen =>
    match m.stack with
    | .executingGraph :: stack => (m.pop stack m.control).visitedGraph result
    | .visiting module rest jobs :: stack =>
      (m.pop stack m.control).visitedDependency module rest jobs result seen
    | _ => m
  | .unwind => m.unwind

/-- Makes steps until the machine is at rest, `fuel` of them at most. -/
def run (host : Host C M) : Nat → Machine C M → Machine C M
  | 0, m => m
  | fuel + 1, m => if m.reply?.isSome then m else run host fuel (m.step host)

/-- Makes a request of a machine that is at rest. -/
def request (m : Machine C M) (r : Request) : Machine C M :=
  { m with stack := [], control := .serve r }

end Machine

end ModuleSystem.Loader
