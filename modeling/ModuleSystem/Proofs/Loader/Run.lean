import ModuleSystem.Proofs.Loader.Rules

/-!
# Runs

A run of a loader is the list of the states that it goes through, the latest first. While a request
is served, the machine makes steps; in between anything may happen that the outside world can do:
another request is made, a signal is given, the host changes what it remembers, or the loader is
dropped. Nothing else is known of the order of these.

An import is polled by the handle that it was started with, which the outside world and host code
get from the loader and cannot make up. So only handles that have been issued are polled.

## Main definitions

* `Machine.Run` : the runs.
* `Machine.Answers` : the reply to a request, and the run in between.
-/

namespace ModuleSystem.Loader

variable {C M : Type}

namespace Machine

/-- What may happen while no request is served. -/
inductive Outside (m : Machine C M) : Machine C M → Prop
  | requests (request : Request) : Outside m (m.request request)
  | signals (name : String) : Outside m { m with store := m.store.signal name }
  | remembers (memory : M) : Outside m { m with memory }
  | dropsLoader : Outside m { m with store := m.store.dropLoader.1 }
  | makesLoader : Outside m { m with store := m.store.newLoader }

/-- A handle has been issued by the loader. -/
def Issued (trace : List (Machine C M)) (handle : ImportHandle) : Prop :=
  ∃ m ∈ trace, m.control = .reply (.started handle)

/-- The runs of a loader, the latest state first. -/
inductive Run (host : Host C M) : List (Machine C M) → Prop
  | start (base : Option Url) (resolver : Resolver) (memory : M) :
      Run host [{ store := { base, resolver }, memory }]
  | step {m trace} (h : Run host (m :: trace)) (busy : m.reply? = none)
      (issued : ∀ handle, m.control = .serve (.poll handle) → Issued (m :: trace) handle) :
      Run host (m.step host :: m :: trace)
  | outside {m m' trace} (h : Run host (m :: trace)) (rests : m.reply?.isSome)
      (change : Outside m m') : Run host (m' :: m :: trace)

/-- A request is being served since some state of a run, by activities above those in `st`. -/
inductive Serves (request : Request) (st : List (Frame C)) : List (Machine C M) → Prop
  | starts {m trace} (control : m.control = .serve request) (stack : m.stack = st) :
      Serves request st (m :: trace)
  | goesOn {m trace} (h : Serves request st trace) (above : st <:+ m.stack)
      (inner : m.stack ≠ st) : Serves request st (m :: trace)

/-- The latest state of a run is the reply to a request. -/
def Answers (request : Request) (reply : Reply) : List (Machine C M) → Prop
  | [] => False
  | m :: trace => m.control = .reply reply ∧ Serves request m.stack trace

/-- Somewhere in a run an import ends well, with the namespace of a module. -/
def Yields (trace : List (Machine C M)) (handle : ImportHandle) (module : RecordId) : Prop :=
  ∃ states, states <:+ trace ∧ Answers (.poll handle) (.progress (some (.ok module))) states

end Machine

end ModuleSystem.Loader
