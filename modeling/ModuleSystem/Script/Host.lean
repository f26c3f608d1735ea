import ModuleSystem.Script.Memory
import ModuleSystem.Script.Source

/-!
# Scripted hosts

A scripted host looks up in its memory what to do. The hook of a program makes its first steps and
then registers its dependencies, setters and body. The hook of a source text fetches the text, goes
through its lines, and registers what they say; the exports of the lines before one that cannot be
read stay.

Steps that only concern the host are made one after the other. A step that needs the loader asks it,
and the code goes on when the reply is there.
-/

namespace ModuleSystem.Script

open Loader

/-- What steps belong to. -/
inductive Role where
  | hook (program : Program)
  | setter (specifier : String) (dependency : RecordId)
  | body
deriving DecidableEq

/-- What steps belong to, and whose they are. -/
structure Place where
  context : ModuleContext
  role : Role
deriving DecidableEq

/-- What the lines of a source text have registered so far. -/
structure Draft where
  /-- The latest dependency comes first. -/
  dependencies : List String := []
  run : Option String := none

/-- Scripted host code. -/
inductive Code where
  /-- The hook of a module. -/
  | hook (context : ModuleContext)
  /-- The hook of a source text, which waits for it. -/
  | fetch (context : ModuleContext) (source : Source)
  /-- The hook of a source text, which has lines left to go through. -/
  | transform (context : ModuleContext) (draft : Draft) (lines : List (Nat × List Char))
  /-- A setter that is called. -/
  | setter (context : ModuleContext) (specifier : String) (steps : List Step)
      (dependency : RecordId)
  /-- A body that starts. -/
  | body (context : ModuleContext) (body : Body)
  /-- The body of a source text. -/
  | run (context : ModuleContext) (text : String)
  /-- Steps to be made. -/
  | steps (place : Place) (rest : List Step)
  /-- Steps to be made after one that the loader has replied to. -/
  | resume (place : Place) (step : Step) (reply : Reply) (rest : List Step)
  /-- Steps to be made after an import, which is to be advanced. -/
  | await (place : Place) (catches : Bool) (handle : ImportHandle) (rest : List Step)
  /-- Steps to be made after an import, which has been advanced. -/
  | advanced (place : Place) (catches : Bool) (handle : ImportHandle) (reply : Reply)
      (rest : List Step)

/-- The value of a term. -/
def Term.eval {C : Type} (s : Store C) : Term → Value
  | value v => v
  | exports url => ((s.get? url).map Value.exports).getD .undefined

/-- The values of named terms. -/
def evalEntries {C : Type} (s : Store C) (entries : List (String × Term)) :
    List (String × Value) :=
  entries.map fun (name, term) => (name, term.eval s)

/-! ### Registrations -/

/-- The list with as many items as asked for: cut, or filled up. -/
def resize {α : Type} (fill : α) (count : Option Nat) (items : List α) : List α :=
  match count with
  | some n => items.take n ++ List.replicate (n - items.length) fill
  | none => items

/-- What the hook of a program registers. -/
def Program.registration (program : Program) (context : ModuleContext) : Registration Code where
  dependencies := program.dependencies.map Prod.fst
  setters := resize none program.setterCount <|
    program.dependencies.map fun (specifier, steps) => steps.map (Code.setter context specifier)
  body := program.body.map (Code.body context)

/-- What the lines of a source text register. No dependency has a setter. -/
def Draft.registration (draft : Draft) (context : ModuleContext) : Registration Code where
  dependencies := draft.dependencies.reverse
  setters := draft.dependencies.map fun _ => none
  body := draft.run.map (Code.run context)

/-! ### Steps -/

/-- Code that has nothing to do any more. -/
def endSteps (place : Place) (m : Memory) : Memory × Action Code :=
  let url := place.context.url
  match place.role with
  | .hook program =>
    let registration := program.registration place.context
    let m := if m.verbose then m.note (.registered registration.describe) else m
    (m, .finish (.ok registration))
  | .setter specifier _ => (m.note (.setterEnded url specifier), .finish (.ok {}))
  | .body => (m.note (.bodyEnded url), .finish (.ok {}))

/-- What a step asks the loader for, if it has to. Without a loader, there is nothing to delete or
define. -/
def Step.request? (s : Store Code) (place : Place) : Step → Option Request
  | publish entries => some (.publish place.context.module (evalEntries s entries))
  | spawn specifier => some (.startFrom place.context.module specifier)
  | await specifier _ => some (.startFrom place.context.module specifier)
  | delete url => if s.hasLoader then some (.delete url) else none
  | define url entries => if s.hasLoader then some (.define url (evalEntries s entries)) else none
  | copy source target =>
    match place.role with
    | .setter _ dependency =>
      some (.publish place.context.module
        [(target, ((s.bindings dependency).get? source).getD .undefined)])
    | _ => none
  | copyAll name =>
    match place.role with
    | .setter _ dependency =>
      some (.publish place.context.module [(name, .exports dependency)])
    | _ => none
  | _ => none

/-- What a step that asks for nothing notes in the log. -/
def Step.event? (s : Store Code) (place : Place) : Step → Option Event
  | log text => some (.logged place.context.url text)
  | resolve specifier =>
    some (.resolved place.context.url (s.resolveFrom place.context.module specifier))
  | inspect url => some (.inspected place.context.url url (s.state? url))
  | delete _ => some (.deleted place.context.url false)
  | define _ _ => some (.defined place.context.url none)
  | _ => none

/-- Makes steps until one of them needs the loader, has to wait or fails. -/
def makeSteps (s : Store Code) (place : Place) : List Step → Memory → Memory × Action Code
  | [], m => endSteps place m
  | step :: rest, m =>
    match step.request? s place with
    | some request => (m, .ask request fun reply => .resume place step reply rest)
    | none =>
      match step with
      | .giveUp => (m, .abort)
      | .fail reason => (m, .finish (.error reason))
      | .wait gate =>
        match m.gate? gate with
        | none => (m, .wait (some gate) (.steps place (step :: rest)))
        | some (.error reason) => (m, .finish (.error reason))
        | some (.ok ()) => makeSteps s place rest m
      | _ => makeSteps s place rest ((step.event? s place).elim m m.note)

/-- Notes the reply to a step that asked the loader for something. -/
def noteReply (place : Place) (m : Memory) : Reply → Memory
  | .started handle =>
    let (m, task) := m.addTask handle
    m.note (.spawned place.context.url task)
  | .deleted wasRegistered => m.note (.deleted place.context.url wasRegistered)
  | .defined module =>
    let (m, number) := m.number module
    m.note (.defined place.context.url (some number))
  | _ => m

/-- Goes on after a step that the loader has replied to. -/
def resume (s : Store Code) (m : Memory) (place : Place) (step : Step) (reply : Reply)
    (rest : List Step) : Memory × Action Code :=
  match step, reply with
  | .await _ catches, .started handle =>
    (m, .ask (.poll handle) fun reply => .advanced place catches handle reply rest)
  | _, _ => makeSteps s place rest (noteReply place m reply)

/-- Goes on after an import has been advanced. -/
def advanced (s : Store Code) (m : Memory) (place : Place) (catches : Bool)
    (handle : ImportHandle) (reply : Reply) (rest : List Step) : Memory × Action Code :=
  match reply with
  | .progress (some result) =>
    let (m, shown) := m.pictureResult s result
    match catches, result with
    | false, .error e => (m, .finish (.error e.toHostError))
    | _, _ => makeSteps s place rest (m.note (.imported place.context.url catches shown))
  | _ => (m, .wait none (.await place catches handle rest))

/-! ### Hooks -/

/-- The memory after a module has been given its context. -/
def noteContext (m : Memory) (context : ModuleContext) : Memory :=
  (m.note (.instantiated context.url context.referrer)).remember context

/-- The hook of a program. -/
def callProgram (s : Store Code) (m : Memory) (context : ModuleContext)
    (entries : List (String × Program)) : Memory × Action Code :=
  let m := noteContext m context
  let exporter := describeExporter (context.module - s.retired)
  let m := if m.verbose then m.note (.contextGiven context.describe exporter) else m
  match entries.lookup context.url.href with
  | none => (m, .finish (.error { message := "no module at " ++ context.url.href }))
  | some program => makeSteps s { context, role := .hook program } program.start m

/-- Goes through the lines of a source text, up to one that publishes something. -/
def transform (m : Memory) (context : ModuleContext) :
    Draft → List (Nat × List Char) → Memory × Action Code
  | draft, [] => (m, .finish (.ok (draft.registration context)))
  | draft, (number, text) :: rest =>
    match Line.read number text with
    | .error reason => (m, .finish (.error reason))
    | .ok .blank => transform m context draft rest
    | .ok (.dependency specifier) =>
      transform m context { draft with dependencies := specifier :: draft.dependencies } rest
    | .ok (.run text) => transform m context { draft with run := some text } rest
    | .ok (.publish name value) =>
      (m, .ask (.publish context.module [(name, .number value)]) fun _ =>
        .transform context draft rest)

/-- Fetches a source text; goes through its lines when it is there. -/
def fetch (m : Memory) (context : ModuleContext) (source : Source) :
    Memory × Action Code :=
  let failed (reason : HostError) : Action Code :=
    .finish (.error (reason.within ("failed to fetch " ++ context.url.href)))
  match source.gate.elim (some (.ok ())) m.gate? with
  | none => (m, .wait source.gate (.fetch context source))
  | some (.error reason) => (m, failed reason)
  | some (.ok ()) =>
    match source.failure with
    | some reason => (m, failed reason)
    | none => transform (noteContext m context) context {} (numberedLines source.text)

/-- The hook of a source text. -/
def callSource (m : Memory) (context : ModuleContext)
    (entries : List (String × Source)) : Memory × Action Code :=
  let m := m.note (.fetched context.url)
  let source := (entries.lookup context.url.href).getD
    { failure := some { message := "404 Not Found" } }
  fetch m context source

/-! ### The host -/

/-- Makes a step of scripted host code. -/
def Code.step (s : Store Code) (m : Memory) : Code → Memory × Action Code
  | hook context =>
    match m.library with
    | .programs entries => callProgram s m context entries
    | .sources entries => callSource m context entries
  | fetch context source => Script.fetch m context source
  | transform context draft lines => Script.transform m context draft lines
  | setter context specifier toMake dependency =>
    let (m, picture) := m.picture s dependency
    let m := m.note (.setterStarted context.url specifier picture)
    makeSteps s { context, role := .setter specifier dependency } toMake m
  | body context (.steps toMake) =>
    makeSteps s { context, role := .body } toMake (m.note (.bodyStarted context.url))
  | body context (.immediate failure) =>
    let result := if failure.isEmpty then .ok {} else .error { message := failure }
    (m.note (.immediateBody context.url), .finish result)
  | run context text => (m.note (.ran context.url text), .finish (.ok {}))
  | steps place rest => makeSteps s place rest m
  | resume place step reply rest => Script.resume s m place step reply rest
  | await place catches handle rest =>
    (m, .ask (.poll handle) fun reply => .advanced place catches handle reply rest)
  | advanced place catches handle reply rest =>
    Script.advanced s m place catches handle reply rest

/-- The host whose code is scripted. -/
def host : Host Code Memory where
  instantiate := Code.hook
  step := Code.step

end ModuleSystem.Script
