import ModuleSystem.Loader.Work
import ModuleSystem.Resolver.Basic

/-!
# The store

The store holds the records of all modules, the registry, which is an index from URLs as they are
written to records, the jobs, groups and setters, and the notifications that wait to be delivered.
Records are never removed. Deleting a module takes its URL out of the registry only; the modules
linked against it keep it.

A loader can be dropped, and another one may take its place. The records up to `retired` belong to
loaders that have been dropped; host code still holds on to them, but what it asks for in their name
is refused.

The store also keeps its history, the latest event first.
-/

namespace ModuleSystem.Loader

/-- What happens in a store. -/
inductive Event where
  /-- A record was made and registered. -/
  | registered (module : RecordId)
  /-- A module was taken out of the registry. -/
  | deleted (module : RecordId)
  | entered (module : RecordId) (state : ModuleState)
  /-- The host was asked for the registration of a module. -/
  | hookCalled (module : RecordId)
  | bodyStarted (module : RecordId)
  | bodyEnded (module : RecordId) (succeeded : Bool)
  /-- A list of exports changed the bindings of a module. -/
  | changed (module : RecordId)
  /-- A notification of a setter was queued. -/
  | raised (setter : SetterId) (module : RecordId)
  /-- A notification was taken from the queue and its setter called. -/
  | called (setter : SetterId) (module : RecordId)
  /-- A notification was taken from the queue while its setter was running, and dropped. -/
  | skipped (setter : SetterId) (module : RecordId)
  | finished (job : JobId)
  /-- An attempt at a group was broken off. -/
  | rested (group : GroupId)
deriving DecidableEq

/-- Everything the loader keeps. -/
structure Store (C : Type) where
  /-- The referrer of imports that have none. -/
  base : Option Url
  resolver : Resolver
  /-- Whether there is a loader. -/
  hasLoader : Bool := true
  /-- How many records belong to loaders that have been dropped. -/
  retired : Nat := 0
  records : Array (Record C) := #[]
  registry : List (String × RecordId) := []
  jobs : Array (Job C) := #[]
  groups : Array Group := #[]
  /-- Those who wait for signals, with the names of these, in the order in which they came. -/
  awaited : List (String × Listener) := []
  setters : Array (Setter C) := #[]
  queue : List (SetterId × RecordId) := []
  /-- Whether the queue is being worked off. -/
  draining : Bool := false
  history : List Event := []

namespace Store

variable {C : Type}

/-! ### Records -/

/-- The record of a number. -/
def record (s : Store C) (module : RecordId) : Record C :=
  s.records[module]?.getD .blank

/-- The store with a record changed. -/
def update (s : Store C) (module : RecordId) (f : Record C → Record C) : Store C :=
  { s with records := s.records.modify module f }

/-- The store with one more event in its history. -/
def note (s : Store C) (e : Event) : Store C :=
  { s with history := e :: s.history }

/-- Whether the loader of a record is still there. -/
def isAlive (s : Store C) (module : RecordId) : Bool :=
  s.retired ≤ module

/-- The bindings of a record. -/
def bindings (s : Store C) (module : RecordId) : Bindings :=
  (s.record module).bindings

/-- The state of a record. -/
def stateOf (s : Store C) (module : RecordId) : ModuleState :=
  (s.record module).state

/-- The store with a record in another state. -/
def enter (s : Store C) (module : RecordId) (state : ModuleState) : Store C :=
  let before := s.stateOf module
  let s := s.update module fun r => r.enter state
  if s.stateOf module = before then s else s.note (.entered module state)

/-- The store with a record failed, and the error that the record carries now; where it cannot
fail, the error given. -/
def fail (s : Store C) (module : RecordId) (error : LoaderError) : Store C × LoaderError :=
  let before := s.stateOf module
  let s := s.update module fun r => r.poison error
  let s := if s.stateOf module = before then s else s.note (.entered module (.failed error))
  (s, (s.stateOf module).error?.getD error)

/-! ### Jobs -/

/-- The job of a number. -/
def job (s : Store C) (j : JobId) : Job C :=
  s.jobs[j]?.getD default

/-- The store with a job changed. -/
def updateJob (s : Store C) (j : JobId) (f : Job C → Job C) : Store C :=
  { s with jobs := s.jobs.modify j f }

/-- The store with a job in another state. -/
def setJob (s : Store C) (j : JobId) (state : JobState C) : Store C :=
  s.updateJob j fun job => { job with state }

/-- The store with one more job, and its number. -/
def newJob (s : Store C) (state : JobState C) : Store C × JobId :=
  ({ s with jobs := s.jobs.push { state } }, s.jobs.size)

/-- The store in which a listener waits for a job. -/
def subscribe (s : Store C) (j : JobId) (listener : Listener) : Store C :=
  if listener = .nobody then s else s.updateJob j (Job.subscribe listener)

/-! ### Groups and signals -/

/-- The group of a number. -/
def group (s : Store C) (group : GroupId) : Group :=
  s.groups[group]?.getD (.ofSize 0)

/-- The store with a group changed. -/
def setGroup (s : Store C) (group : GroupId) (g : Group) : Store C :=
  { s with groups := s.groups.modify group fun _ => g }

/-- The store with one more group, and its number. -/
def newGroup (s : Store C) (size : Nat) : Store C × GroupId :=
  ({ s with groups := s.groups.push (.ofSize size) }, s.groups.size)

/-- Tells listeners that they can go on, and whoever they pass this on to before the next of them,
`fuel` of all these at most. -/
def tellWithin : Nat → List Listener → Store C → Store C
  | _, [], s => s
  | 0, _ :: _, s => s
  | fuel + 1, .nobody :: others, s => tellWithin fuel others s
  | fuel + 1, .job j :: others, s =>
    tellWithin fuel ((s.job j).active ++ others) (s.updateJob j Job.silence)
  | fuel + 1, .member group i :: others, s =>
    let (g, caller) := (s.group group).call i
    tellWithin fuel (caller :: others) (s.setGroup group g)

/-- Tells listeners that they can go on. A subscription is passed on once, and a member becomes due
once, so the fuel suffices. -/
def tell (s : Store C) (listeners : List Listener) : Store C :=
  let subscriptions := s.jobs.foldl (fun n job => n + job.subscriptions.length) 0
  s.tellWithin (2 * (listeners.length + subscriptions + s.groups.size)) listeners

/-- The store with a job ended, and its subscribers told. -/
def finish (s : Store C) (j : JobId) (outcome : Outcome) : Store C :=
  let listeners := (s.job j).active
  (((s.updateJob j Job.silence).setJob j (.finished outcome)).note (.finished j)).tell listeners

/-- The store in which a listener waits for a signal. -/
def await (s : Store C) (signal : String) (listener : Listener) : Store C :=
  if s.awaited.contains (signal, listener) then s
  else { s with awaited := s.awaited ++ [(signal, listener)] }

/-- The store after a signal, which those who wait for it are told of. -/
def signal (s : Store C) (name : String) : Store C :=
  let (told, awaited) := s.awaited.partition fun (other, _) => other == name
  { s with awaited }.tell (told.map Prod.snd)

/-! ### Setters and notifications -/

/-- The store with a setter marked as running or not. -/
def markSetter (s : Store C) (setter : SetterId) (isRunning : Bool) : Store C :=
  { s with setters := s.setters.modify setter fun x => { x with isRunning } }

/-- The store with the setters of a registration, and their numbers. -/
def addSetters (s : Store C) : List (Option (RecordId → C)) → Store C × List (Option SetterId)
  | [] => (s, [])
  | none :: rest =>
    let (s, ids) := s.addSetters rest
    (s, none :: ids)
  | some run :: rest =>
    let id := s.setters.size
    let (s, ids) := { s with setters := s.setters.push { run } }.addSetters rest
    (s, some id :: ids)

/-- The store with notifications of some setters queued. -/
def raise (s : Store C) (setters : List SetterId) (module : RecordId) : Store C :=
  { s with
    queue := s.queue ++ setters.map fun setter => (setter, module)
    history := (setters.map fun setter => .raised setter module).reverse ++ s.history }

/-! ### The registry -/

/-- The record that is registered under a URL. -/
def lookup (s : Store C) (url : Url) : Option RecordId :=
  s.registry.lookup url.href

/-- Whether a module is registered under a URL. -/
def has (s : Store C) (url : Url) : Bool :=
  (s.lookup url).isSome

/-- The state of the module registered under a URL. -/
def state? (s : Store C) (url : Url) : Option ModuleState :=
  (s.lookup url).map s.stateOf

/-- The error of the module registered under a URL. -/
def error? (s : Store C) (url : Url) : Option LoaderError :=
  (s.state? url).bind ModuleState.error?

/-- The record registered under a URL, whose namespace can be used once it is executed. -/
def get? (s : Store C) (url : Url) : Option RecordId :=
  (s.lookup url).filter fun module => s.stateOf module = .executed

/-- The registered modules and their states, in the order in which their records were made. -/
def entries (s : Store C) : List (Url × ModuleState) :=
  s.registry.map fun (_, module) => ((s.record module).url, s.stateOf module)

/-- The store with one more record, which is registered under its URL. -/
def register (s : Store C) (r : Record C) : Store C × RecordId :=
  let module := s.records.size
  let s := { s with records := s.records.push r, registry := s.registry ++ [(r.url.href, module)] }
  (s.note (.registered module), module)

/-- The record of a URL, which is made with its jobs if there is none yet. -/
def getOrCreate (s : Store C) (url : Url) (referrer : Option Url) : Store C × RecordId :=
  match s.lookup url with
  | some module => (s, module)
  | none =>
    let module := s.records.size
    let (s, instantiation) := s.newJob (.waiting (.instantiate module))
    let (s, linking) := s.newJob (.waiting (.link module))
    s.register { url, firstReferrer := referrer, instantiation, linking }

/-- The store without the module registered under a URL, and whether there was one. Its setters are
not told of its dependencies any more. -/
def delete (s : Store C) (url : Url) : Store C × Bool :=
  match s.lookup url with
  | none => (s, false)
  | some module =>
    let r := s.record module
    let s := { s with registry := s.registry.filter fun (other, _) => other ≠ url.href }
    let s := s.update module fun r => { r with dependencySetters := [] }
    let s := (r.dependencies.zip r.dependencySetters).foldl (fun s (dependency, setter) =>
      match setter with
      | none => s
      | some setter => s.update dependency fun d =>
          { d with importerSetters := d.importerSetters.filter fun x => x ≠ setter }) s
    (s.note (.deleted module), true)

/-- The store with an executed module of the given exports registered under a URL, in the place of
any other. -/
def define (s : Store C) (url : Url) (entries : List (String × Value)) : Store C × RecordId :=
  let (s, _) := s.delete url
  let (s, ready) := s.newJob (.finished (.ok ()))
  let (bindings, _) := Bindings.writeAll false entries []
  s.register { url, firstReferrer := none, bindings, state := .executed, hasExported := true
               instantiation := ready, linking := ready }

/-! ### Resolution -/

/-- The URL of a specifier, which the base URL helps to resolve if there is no referrer. -/
def resolve (s : Store C) (specifier : String) (referrer : Option Url) : Except LoaderError Url :=
  let referrer := referrer.or s.base
  (s.resolver.resolve specifier referrer).mapError (.resolution specifier referrer)

/-- The URL of a specifier in a module, as long as its loader is there. -/
def resolveFrom (s : Store C) (module : RecordId) (specifier : String) : Except LoaderError Url :=
  if s.isAlive module then s.resolve specifier (some (s.record module).url)
  else .error .loaderDropped

/-! ### Loaders -/

/-- The store after its loader has been dropped, and whether there was one. -/
def dropLoader (s : Store C) : Store C × Bool :=
  ({ s with hasLoader := false, retired := s.records.size, registry := [], queue := [] },
    s.hasLoader)

/-- The store with a new loader, which has registered nothing. -/
def newLoader (s : Store C) : Store C :=
  { s.dropLoader.1 with hasLoader := true }

end Store

end ModuleSystem.Loader
