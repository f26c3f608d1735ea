import ModuleSystem.ImportMap.Resolution

/-!
# Errors of the loader

A module fails because a specifier has no URL, because the host cannot instantiate it or because
its body fails. It keeps its error for ever, and hands it to every module that depends on it. An
error of the host is a chain of texts: the outermost one, then its causes.
-/

namespace ModuleSystem.Loader

/-- An error of host code: a text and the texts of its causes, the nearest first. -/
structure HostError where
  message : String
  causes : List String := []
deriving DecidableEq, Repr

namespace HostError

/-- The text and the texts of all causes. -/
def chain (e : HostError) : List String :=
  e.message :: e.causes

/-- The last text of the chain. -/
def rootCause (e : HostError) : String :=
  e.causes.getLast?.getD e.message

/-- The error with a text around it. -/
def within (e : HostError) (message : String) : HostError :=
  { message, causes := e.chain }

/-- The error of a chain of texts; no text counts as one empty text. -/
def ofChain : List String → HostError
  | [] => { message := "" }
  | message :: causes => { message, causes }

end HostError

/-- Why an import fails. -/
inductive LoaderError where
  | resolution (specifier : String) (referrer : Option Url) (reason : ResolveError)
  | instantiation (module : Url) (referrer : Option Url) (reason : HostError)
  | execution (module : Url) (referrer : Option Url) (reason : HostError)
  | loaderDropped
deriving DecidableEq

namespace LoaderError

/-- The name of the kind of an error. -/
def kind : LoaderError → String
  | resolution .. => "resolution"
  | instantiation .. => "instantiation"
  | execution .. => "execution"
  | loaderDropped => "loader_dropped"

/-- The error in words, without its causes. -/
def message : LoaderError → String
  | resolution specifier referrer _ =>
    "cannot resolve " ++ Text.quote specifier ++ describeReferrer referrer
  | instantiation module referrer _ =>
    "failed to instantiate " ++ module.href ++ describeReferrer referrer
  | execution module referrer _ =>
    "error while executing " ++ module.href ++ describeReferrer referrer
  | loaderDropped => "the module loader has been dropped"

/-- The module that an error arose in. -/
def module? : LoaderError → Option Url
  | instantiation module _ _ => some module
  | execution module _ _ => some module
  | _ => none

/-- The module whose import led to the error. -/
def referrer? : LoaderError → Option Url
  | resolution _ referrer _ => referrer
  | instantiation _ referrer _ => referrer
  | execution _ referrer _ => referrer
  | loaderDropped => none

/-- The error of the host that an error goes back to. -/
def hostError? : LoaderError → Option HostError
  | instantiation _ _ reason => some reason
  | execution _ _ reason => some reason
  | _ => none

/-- The texts of the causes, the nearest first. -/
def causes : LoaderError → List String
  | resolution _ _ reason => [reason.message]
  | instantiation _ _ reason => reason.chain
  | execution _ _ reason => reason.chain
  | loaderDropped => []

/-- The error as one of the host, for host code that passes it on. -/
def toHostError (e : LoaderError) : HostError :=
  { message := e.message, causes := e.causes }

end LoaderError

end ModuleSystem.Loader
