import ModuleSystem.Proofs.Loader.Trace
import ModuleSystem.Script.Host

/-!
# Computed runs

What a run comes to can be computed for a list of things that the outside world does, each as soon
as the machine is at rest (`Machine.session`). What is computed this way is a run. Scripted hosts
give runs that can be written down (`Machine.scripted`).

## Main results

* `Machine.Run.session`, `Machine.Run.scripted` : computed runs are runs.
-/

namespace ModuleSystem.Loader

variable {C M : Type}

namespace Machine

deriving instance DecidableEq for Reply

/-- What the outside world does in a computed run; `M` is the type of what the host remembers. -/
inductive Stimulus (M : Type) where
  | request (r : Request)
  | signal (name : String)
  | remember (change : M → M)

/-- The machine after the outside world has done something. -/
def Stimulus.apply (m : Machine C M) : Stimulus M → Machine C M
  | request r => m.request r
  | signal name => { m with store := m.store.signal name }
  | remember change => { m with memory := change m.memory }

/-- Whether a handle has been issued. -/
def hasIssued (trace : List (Machine C M)) (handle : ImportHandle) : Bool :=
  trace.any fun m =>
    match m.control with
    | .reply (.started other) => other = handle
    | _ => false

/-- Whether the next step of a machine polls no handle but one that has been issued. -/
def mayStep (trace : List (Machine C M)) (m : Machine C M) : Bool :=
  match m.control with
  | .serve (.poll handle) => hasIssued trace handle
  | _ => true

/-- The run in which the outside world does one thing after the other, each as soon as the machine is
at rest, as far as `fuel` states reach. It ends where a handle would be polled that has not been
issued. -/
def session (host : Host C M) :
    Nat → List (Stimulus M) → List (Machine C M) → List (Machine C M)
  | 0, _, trace => trace
  | _ + 1, _, [] => []
  | fuel + 1, stimuli, m :: trace =>
    if m.reply?.isSome then
      match stimuli with
      | [] => m :: trace
      | stimulus :: stimuli => session host fuel stimuli (stimulus.apply m :: m :: trace)
    else if mayStep (m :: trace) m then session host fuel stimuli (m.step host :: m :: trace)
    else m :: trace

section Session

variable {host : Host C M} {m : Machine C M} {trace : List (Machine C M)} {handle : ImportHandle}

theorem issued_of_hasIssued (h : hasIssued trace handle = true) : Issued trace handle := by
  obtain ⟨m, mem, hm⟩ := List.any_eq_true.mp h
  refine ⟨m, mem, ?_⟩
  split at hm
  · rename_i other hc
    rw [hc, of_decide_eq_true hm]
  · exact nomatch hm

theorem Stimulus.outside (m : Machine C M) (stimulus : Stimulus M) :
    Outside m (stimulus.apply m) := by
  cases stimulus with
  | request r => exact Outside.requests r
  | signal name => exact Outside.signals name
  | remember change => exact Outside.remembers (change m.memory)

/-- A computed run is a run. -/
theorem Run.session (h : Run host trace) (fuel : Nat) (stimuli : List (Stimulus M)) :
    Run host (session host fuel stimuli trace) := by
  induction fuel generalizing stimuli trace with
  | zero => exact h
  | succ fuel ih =>
    cases trace with
    | nil => exact h
    | cons m trace =>
      unfold Machine.session
      split_ifs with rests may
      · cases stimuli with
        | nil => exact h
        | cons stimulus stimuli => exact ih (.outside h rests (stimulus.outside m)) stimuli
      · have busy : m.reply? = none := by simpa using rests
        refine ih (.step h busy fun handle hc => ?_) stimuli
        simp only [mayStep, hc] at may
        exact issued_of_hasIssued may
      · exact h

/-- The states that a computed run starts from stay at its end. -/
theorem suffix_session (fuel : Nat) (stimuli : List (Stimulus M)) :
    trace <:+ session host fuel stimuli trace := by
  induction fuel generalizing stimuli trace with
  | zero => exact List.suffix_refl _
  | succ fuel ih =>
    cases trace with
    | nil => exact List.nil_suffix
    | cons m trace =>
      unfold Machine.session
      split_ifs
      · cases stimuli with
        | nil => exact List.suffix_refl _
        | cons stimulus stimuli => exact (List.suffix_cons _ _).trans (ih stimuli)
      · exact (List.suffix_cons _ _).trans (ih stimuli)
      · exact List.suffix_refl _

/-- The latest state of a computed run, or the one that it has started from. -/
theorem session_eq (fuel : Nat) (stimuli : List (Stimulus M)) (start : Machine C M) :
    session host fuel stimuli (m :: trace) =
      (session host fuel stimuli (m :: trace)).headD start ::
        (session host fuel stimuli (m :: trace)).tail := by
  have suffix := @suffix_session _ _ host (m :: trace) fuel stimuli
  cases h : session host fuel stimuli (m :: trace) with
  | nil =>
    rw [h] at suffix
    exact nomatch List.suffix_nil.mp suffix
  | cons => rfl

/-- Whether the outside world has polled a handle and the poll is still being served, or has just
been made. -/
def isPolling (handle : ImportHandle) : List (Machine C M) → Bool
  | [] => false
  | m :: trace =>
    if m.stack.isEmpty then
      match m.control with
      | .serve (.poll other) => other = handle
      | _ => false
    else isPolling handle trace

/-- Whether the outside world has been told somewhere in a run that an import ended, and how. -/
def hasEnded (handle : ImportHandle) (p : Except LoaderError RecordId → Bool) :
    List (Machine C M) → Bool
  | [] => false
  | m :: trace =>
    (match m.reply? with
    | some (.progress (some result)) => p result && isPolling handle trace
    | _ => false) || hasEnded handle p trace

theorem serves_of_isPolling (h : isPolling handle trace = true) :
    Serves (.poll handle) [] trace := by
  induction trace with
  | nil => exact nomatch h
  | cons m trace ih =>
    unfold isPolling at h
    split_ifs at h with empty
    · have stack : m.stack = [] := List.isEmpty_iff.mp empty
      split at h
      · rename_i other hc
        rw [of_decide_eq_true h] at hc
        exact .starts hc stack
      · exact nomatch h
    · exact .goesOn (ih h) List.nil_suffix fun stack => empty (by rw [stack]; rfl)

/-- An import that has just ended in a computed run. -/
theorem answers_of_isPolling {result : Except LoaderError RecordId}
    (reply : m.reply? = some (.progress (some result))) (h : isPolling handle trace = true) :
    Answers (.poll handle) (.progress (some result)) (m :: trace) := by
  obtain ⟨stack, control⟩ := reply?_eq_some.mp reply
  refine ⟨control, ?_⟩
  rw [stack]
  exact serves_of_isPolling h

theorem answers_of_hasEnded {p : Except LoaderError RecordId → Bool}
    (h : hasEnded handle p trace = true) : ∃ states result, states <:+ trace ∧ p result = true ∧
      Answers (.poll handle) (.progress (some result)) states := by
  induction trace with
  | nil => cases h
  | cons m trace ih =>
    unfold hasEnded at h
    rcases Bool.or_eq_true_iff.mp h with h | h
    · split at h
      · rename_i result reply
        obtain ⟨hp, polling⟩ := Bool.and_eq_true_iff.mp h
        exact ⟨m :: trace, result, List.suffix_refl _, hp, answers_of_isPolling reply polling⟩
      · cases h
    · obtain ⟨states, result, below, rest⟩ := ih h
      exact ⟨states, result, below.trans (List.suffix_cons _ _), rest⟩

/-- An import that has ended well in a computed run. -/
theorem yields_of_hasEnded {module : RecordId}
    (h : hasEnded handle (fun result => result.toOption = some module) trace = true) :
    Yields trace handle module := by
  obtain ⟨states, result, below, hp, answers⟩ := answers_of_hasEnded h
  cases result with
  | error error => exact nomatch of_decide_eq_true hp
  | ok n =>
    obtain rfl := Option.some.inj (of_decide_eq_true hp)
    exact ⟨states, below, answers⟩

end Session

/-! ### Scripted runs -/

/-- A new loader with the base URL `x:/`, whose host has the given modules. -/
def scriptedLoader (modules : List (String × Script.Program)) :
    Machine Script.Code Script.Memory where
  store := { base := some { scheme := "x", path := "/" }, resolver := {} }
  memory := { library := .programs modules }

/-- The run in which a module is imported and then the outside world does one thing after the other,
as far as `fuel` steps reach. -/
def scripted (modules : List (String × Script.Program)) (specifier : String)
    (stimuli : List (Stimulus Script.Memory)) (fuel : Nat) :
    List (Machine Script.Code Script.Memory) :=
  session Script.host fuel stimuli
    [(scriptedLoader modules).request (.start specifier none), scriptedLoader modules]

/-- The latest state of a scripted run. -/
def scriptedEnd (modules : List (String × Script.Program)) (specifier : String)
    (stimuli : List (Stimulus Script.Memory)) (fuel : Nat) : Machine Script.Code Script.Memory :=
  (scripted modules specifier stimuli fuel).headD (scriptedLoader modules)

section Scripted

variable (modules : List (String × Script.Program)) (specifier : String)
  (stimuli : List (Stimulus Script.Memory)) (fuel : Nat)

theorem scripted_eq : scripted modules specifier stimuli fuel =
    scriptedEnd modules specifier stimuli fuel :: (scripted modules specifier stimuli fuel).tail :=
  session_eq ..

/-- A scripted run is a run. -/
theorem Run.scripted : Run Script.host (scriptedEnd modules specifier stimuli fuel ::
    (Machine.scripted modules specifier stimuli fuel).tail) := by
  have run : Run Script.host (Machine.scripted modules specifier stimuli fuel) :=
    .session (.outside (.start _ _ _) rfl (.requests _)) ..
  exact scripted_eq modules specifier stimuli fuel ▸ run

/-- A scripted run that comes to rest starts with an import. -/
theorem suffix_scripted (rests : (scriptedEnd modules specifier stimuli fuel).reply?.isSome) :
    [(scriptedLoader modules).request (.start specifier none), scriptedLoader modules] <:+
      (scripted modules specifier stimuli fuel).tail := by
  have below : [(scriptedLoader modules).request (.start specifier none), scriptedLoader modules] <:+
      scripted modules specifier stimuli fuel := suffix_session ..
  rw [scripted_eq] at below
  refine (List.suffix_cons_iff.mp below).resolve_left fun same => ?_
  rw [← (List.cons.inj same).1] at rests
  exact nomatch rests

end Scripted

end Machine

end ModuleSystem.Loader
