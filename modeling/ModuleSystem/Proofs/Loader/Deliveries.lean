import ModuleSystem.Proofs.Loader.Outlets
import ModuleSystem.Proofs.Loader.Nesting

/-!
# Deliveries

Notifications are delivered by one activity at a time, and no setter runs within another
(`Machine.Paced`). So no notification finds its setter running, and none is left when no exports are
being published and no setters handed over.

## Main results

* `Machine.Traced.paced` : the order of deliveries in every run.
* `Machine.Paced.idle` : between deliveries the queue is empty.
-/

namespace ModuleSystem.Loader

variable {C M : Type}

namespace Machine

open Store

/-- Notifications are delivered by one activity at a time, which runs one setter at a time. -/
structure Paced (m : Machine C M) : Prop where
  order : m.store.draining = false ∧ deliveries m.stack = [] ∨
    m.store.draining = true ∧
      (deliveries m.stack = [none] ∨ ∃ x, deliveries m.stack = [some x, none])
  empty : m.store.draining = false → m.store.queue = []
  running : ∀ x code, m.store.setters[x]? = some code → code.isRunning = true →
    some x ∈ deliveries m.stack

/-- Notifications have been queued, and a delivery is under way. -/
structure Raises (s : Store C) (st : List (Frame C)) (s' : Store C) (st' : List (Frame C)) :
    Prop where
  draining : s'.draining = true
  setters : s'.setters = s.setters
  stack : s.draining = true ∧ deliveries st' = deliveries st ∨
    s.draining = false ∧ deliveries st' = none :: deliveries st

section Paced

variable {host : Host C M} {ρ ρ' : Roles} {m m' : Machine C M} {trace : List (Machine C M)}
  {s s' : Store C} {st st' : List (Frame C)} {c c' : Control C} {setters : List SetterId}
  {r : RecordId} {x : SetterId}

theorem Propagates.raises (way : Propagates s setters r st s' st' c') :
    Raises s st s' st' := by
  cases way with
  | queued h => exact ⟨h, rfl, .inl ⟨h, rfl⟩⟩
  | delivered h => exact ⟨rfl, rfl, .inr ⟨h, rfl⟩⟩

/-- A setter that is marked as running or not is the only one that is marked otherwise. -/
theorem getElem?_markSetter {y : SetterId} {b : Bool} {code : Setter C}
    (known : (s.markSetter x b).setters[y]? = some code) :
    y = x ∧ code.isRunning = b ∨ y ≠ x ∧ s.setters[y]? = some code := by
  simp only [markSetter, Array.getElem?_modify] at known
  split_ifs at known with same
  · obtain ⟨other, _, rfl⟩ := Option.map_eq_some_iff.mp known
    exact .inl ⟨same.symm, rfl⟩
  · exact .inr ⟨Ne.symm same, known⟩

/-- When the innermost activity works off the queue, no setter runs. -/
theorem Paced.deliveries_eq (paced : m.Paced) (top : m.stack = .draining :: st) :
    m.store.draining = true ∧ deliveries st = [] := by
  rcases paced.order with ⟨_, none⟩ | ⟨draining, one | ⟨x, two⟩⟩
  · rw [top] at none
    exact nomatch none
  · rw [top] at one
    exact ⟨draining, (List.cons.inj one).2⟩
  · rw [top] at two
    exact nomatch (List.cons.inj two).1

/-- A setter that is taken from the queue is not running. -/
theorem Paced.not_running (paced : m.Paced) (top : m.stack = .draining :: st) {code : Setter C}
    (known : m.store.setters[x]? = some code) : code.isRunning = false := by
  have none := (paced.deliveries_eq top).2
  cases running : code.isRunning with
  | false => rfl
  | true =>
    have mem := paced.running x code known running
    rw [top, deliveries, none] at mem
    exact nomatch List.mem_singleton.mp mem

private theorem Paced.of_raises (paced : m.Paced) (raises : Raises s st m'.store m'.stack)
    (pace : SamePace m.store s) (stack : deliveries st = deliveries m.stack) : m'.Paced := by
  obtain ⟨draining, same, under⟩ := raises
  rw [pace.draining, stack] at under
  refine ⟨.inr ⟨draining, ?_⟩, fun off => ?_, fun x code known running => ?_⟩
  · rcases under with ⟨_, under⟩ | ⟨off, under⟩
    · rw [under]
      rcases paced.order with ⟨off, _⟩ | ⟨_, order⟩
      · exact nomatch off.symm.trans ‹m.store.draining = true›
      · exact order
    · rw [under]
      rcases paced.order with ⟨_, none⟩ | ⟨on, _⟩
      · exact .inl (by rw [none])
      · exact nomatch off.symm.trans on
  · exact nomatch draining.symm.trans off
  · rw [same, pace.setters] at known
    have mem := paced.running x code known running
    rcases under with ⟨_, under⟩ | ⟨_, under⟩ <;> rw [under]
    · exact mem
    · exact List.mem_cons_of_mem _ mem

private theorem Paced.of_same (paced : m.Paced) (pace : SamePace m.store m'.store)
    (stack : deliveries m'.stack = deliveries m.stack) : m'.Paced := by
  obtain ⟨order, empty, running⟩ := paced
  refine ⟨?_, ?_, ?_⟩
  · rwa [pace.draining, stack]
  · rwa [pace.draining, pace.queue]
  · rwa [pace.setters, stack]

theorem Paced.step (paced : m.Paced) (rule : Rule host m m') : m'.Paced := by
  have listened := fun (xs : List Dependency) (s : Store C) => samePace_foldl samePace_listen xs s
  cases rule.notice with
  | mute store stack => exact paced.of_same store.toSamePace stack
  | @adopts r code registration stack _ store =>
    have adds := addsSetters registration.setters m.store
    obtain ⟨order, empty, running⟩ := paced
    rw [stack] at order running
    refine ⟨?_, ?_, fun x code known isRunning => ?_⟩
    · rw [store]
      exact adds.draining ▸ order
    · rw [store]
      exact fun off => adds.queue.trans (empty (adds.draining ▸ off))
    · rw [store] at known
      rcases Nat.lt_or_ge x m.store.setters.size with hx | hx
      · exact running x code ((adds.old x hx).symm.trans known) isRunning
      · exact nomatch (adds.idle x code hx known).symm.trans isRunning
  | publishes _ after way =>
    subst after
    exact paced.of_raises way.raises ⟨rfl, rfl, rfl, rfl⟩ rfl
  | hands hands =>
    obtain ⟨way, _, _, after⟩ := hands
    obtain ⟨mute, stack⟩ := way.mute
    exact paced.of_raises after.raises (mute.toSamePace.trans (listened _ _)) stack
  | attaches attaches =>
    obtain ⟨way, _, store⟩ := attaches
    obtain ⟨mute, stack⟩ := way.mute
    refine paced.of_same ?_ stack
    rw [store]
    exact (mute.toSamePace.trans (listened _ _)).trans (samePace_attach ..)
  | deletes store stack =>
    refine paced.of_same ?_ (by rw [stack])
    rw [store]
    exact samePace_delete ..
  | defines store stack =>
    refine paced.of_same ?_ (by rw [stack])
    rw [store]
    exact samePace_define ..
  | @calls x _ queue _ st queued known idle top stack store =>
    obtain ⟨draining, none⟩ := paced.deliveries_eq top
    have now : deliveries m'.stack = [some x, .none] := by
      rw [stack, top, deliveries, deliveries, none]
    refine ⟨.inr ⟨?_, .inr ⟨x, now⟩⟩, fun off => ?_, fun y code' known' running => ?_⟩
    · rw [store]
      exact draining
    · rw [store] at off
      exact nomatch draining.symm.trans off
    · rw [store] at known'
      rcases getElem?_markSetter known' with ⟨rfl, _⟩ | ⟨_, known'⟩
      · rw [now]
        exact List.mem_cons_self
      · exact nomatch (paced.not_running top known').symm.trans running
  | drops queued busy top stack _ draining setters =>
    obtain ⟨on, _⟩ := paced.deliveries_eq top
    obtain ⟨order, _, running⟩ := paced
    rw [← draining, ← stack] at order
    rw [← setters, ← stack] at running
    exact ⟨order, fun off => absurd ((draining.trans on).symm.trans off) nofun, running⟩
  | @settles x stack store =>
    obtain ⟨order, empty, running⟩ := paced
    rw [stack, deliveries] at order running
    have two : m.store.draining = true ∧ deliveries m'.stack = [none] := by
      rcases order with ⟨_, none⟩ | ⟨on, one | ⟨y, two⟩⟩
      · exact nomatch none
      · exact nomatch (List.cons.inj one).1
      · exact ⟨on, (List.cons.inj two).2⟩
    refine ⟨.inr ⟨?_, .inl two.2⟩, fun off => ?_, fun y code known isRunning => ?_⟩
    · rw [store]
      exact two.1
    · rw [store] at off
      exact nomatch two.1.symm.trans off
    · rw [store] at known
      rcases getElem?_markSetter known with ⟨_, off⟩ | ⟨other, known⟩
      · exact nomatch off.symm.trans isRunning
      · refine (List.mem_cons.mp (running y code known isRunning)).resolve_left fun same => ?_
        exact other (Option.some.inj same)
  | @rests stack store _ =>
    have none := (paced.deliveries_eq stack).2
    obtain ⟨_, _, running⟩ := paced
    refine ⟨.inl ⟨by rw [store]; rfl, none⟩, fun _ => by rw [store]; rfl, fun x code known run => ?_⟩
    rw [store] at known
    have mem := running x code known run
    rw [stack, deliveries, none] at mem
    exact nomatch List.mem_singleton.mp mem

/-- Outside, the queue stays as it is or is given up with its loader. -/
theorem Outside.pace (h : Outside m m') : m'.store.draining = m.store.draining ∧
    m'.store.setters = m.store.setters ∧
    (m'.store.queue = m.store.queue ∨ m'.store.queue = []) := by
  cases h with
  | requests | remembers => exact ⟨rfl, rfl, .inl rfl⟩
  | signals name =>
    have told := mute_tellWithin (C := C)
    exact ⟨(told _ _ _).draining, (told _ _ _).setters, .inl (told _ _ _).queue⟩
  | dropsLoader | makesLoader => exact ⟨rfl, rfl, .inr rfl⟩

theorem Paced.pause (paced : m.Paced) (pause : SoundPause ρ m m') : m'.Paced := by
  obtain ⟨draining, setters, queue⟩ := pause.change.pace
  obtain ⟨stack, _⟩ := reply?_isSome.mp pause.rests
  obtain ⟨order, empty, running⟩ := paced
  rw [stack] at order running
  rw [← draining, ← pause.stack] at order
  rw [← setters, ← pause.stack] at running
  refine ⟨order, fun off => ?_, running⟩
  rw [draining] at off
  rcases queue with queue | queue
  · rw [queue]
    exact empty off
  · exact queue

/-- Notifications are delivered one after the other, in every run. -/
theorem Traced.paced (h : Traced host ρ (m :: trace)) : m.Paced := by
  refine h.invariant (P := fun _ m => m.Paced) (fun _ _ _ => ?_)
    (fun _ step paced => paced.step step.rule) fun _ pause paced => paced.pause pause
  exact ⟨.inl ⟨rfl, rfl⟩, fun _ => rfl, fun x _ known => nomatch known⟩

end Paced

end Machine

/-- Unless host code gives up, what comes next is handed to the innermost activity; the delivery of
notifications, and what waits for it, are handed nothing else. -/
theorem Control.Fits.slot {ρ : Roles} {s : Store C} {st : List (Frame C)} {c : Control C}
    (h : c.Fits ρ s st) : c = .unwind ∨ ∃ slot, Awaits ρ slot st ∧
      (slot = .drain → c = .drain) ∧ (slot = .drained → c = .drained) := by
  cases c with
  | unwind => exact .inl rfl
  | drain => exact .inr ⟨_, h, fun _ => rfl, nofun⟩
  | drained => exact .inr ⟨_, h, nofun, fun _ => rfl⟩
  | host _ | serve _ | poll _ => exact .inr ⟨_, h, nofun, nofun⟩
  | reply _ => exact .inr ⟨_, h.1, nofun, nofun⟩
  | ended _ =>
    obtain ⟨_, h⟩ := h
    exact .inr ⟨_, h, nofun, nofun⟩
  | polled _ | work _ | paused _ | visit _ _ =>
    obtain ⟨_, h, _⟩ := h
    exact .inr ⟨_, h, nofun, nofun⟩
  | link _ _ | visited _ _ =>
    obtain ⟨_, _, h, _⟩ := h
    exact .inr ⟨_, h, nofun, nofun⟩
  | linked _ _ =>
    obtain ⟨_, _, _, h, _⟩ := h
    exact .inr ⟨_, h, nofun, nofun⟩

/-- Something is delivered only while exports are published or setters handed over. -/
theorem Awaits.mayDeliver {ρ : Roles} {slot : Slot} {st : List (Frame C)} (h : Awaits ρ slot st)
    (busy : Machine.deliveries st ≠ []) : ∃ frame ∈ st, Machine.MayDeliver frame := by
  induction h with
  | nil => exact absurd rfl busy
  | @cons slot slot' frame st fits below ih =>
    cases fits with
    | draining =>
      rcases below with _ | ⟨fits, _⟩
      cases fits with
      | publishing => exact ⟨.publishing, by simp, trivial⟩
      | handingOver _ _ => exact ⟨_, List.mem_cons_of_mem _ List.mem_cons_self, trivial⟩
    | setter =>
      rcases below with _ | ⟨fits, below⟩
      cases fits
      obtain ⟨frame, mem, may⟩ := ih nofun
      exact ⟨frame, List.mem_cons_of_mem _ mem, may⟩
    | _ =>
      obtain ⟨frame, mem, may⟩ := ih busy
      exact ⟨frame, List.mem_cons_of_mem _ mem, may⟩

namespace Machine

/-- When no exports are published and no setters handed over, all notifications are delivered. -/
theorem Paced.idle {ρ : Roles} {m : Machine C M} (paced : m.Paced) (sound : m.Sound ρ)
    (rests : ∀ frame ∈ m.stack, ¬ MayDeliver frame) : m.store.queue = [] := by
  refine paced.empty ?_
  obtain ⟨slot, awaits⟩ := sound.control.awaits
  have none : deliveries m.stack = [] := by
    by_contra busy
    obtain ⟨frame, mem, may⟩ := awaits.mayDeliver busy
    exact rests frame mem may
  rcases paced.order with ⟨off, _⟩ | ⟨_, one | ⟨x, two⟩⟩
  · exact off
  · exact nomatch none.symm.trans one
  · exact nomatch none.symm.trans two

end Machine

end ModuleSystem.Loader
