import ModuleSystem.Proofs.Loader.Collecting
import ModuleSystem.Proofs.Loader.Descent

/-!
# Ranks of jobs

A job waits only for jobs that come before it (`Machine.Precedes`): those that instantiate modules
come before those that link them, these before those that execute modules, and these before those of
imports. A job that executes a module may wait for others of its kind; these have been made earlier.
So as long as no import is within another activity, the jobs that are being advanced come one before
the other, and nobody comes to a job that is being advanced already.

## Main definitions

* `Machine.Precedes` : the order of jobs.

## Main results

* `Machine.Traced.of_collecting` : the jobs that a module waits for are earlier ones, and execute
  its dependencies.
* `Machine.Traced.not_advanced_of_poll` : no job is waited for by those that it waits for.
-/

namespace ModuleSystem.Loader

variable {C M : Type}

/-- How late jobs of a kind come. -/
def JobKind.rank : JobKind → Nat
  | ready _ | instantiate _ => 0
  | link _ => 1
  | execute _ => 2
  | evaluate _ => 3

/-- A walk that executes a graph is that of a job that does so. -/
theorem Awaits.evaluates_of_visited {ρ : Roles} {j : JobId} {r : RecordId} {st : List (Frame C)}
    (h : Awaits ρ (.visited j r) st) : ∃ r, ρ.Is j (.evaluate r) := by
  generalize hslot : Slot.visited j r = slot at h
  induction h generalizing r with
  | nil => exact nomatch hslot
  | cons fits _ ih =>
    subst hslot
    cases fits with
    | executingGraph is => exact ⟨_, is⟩
    | visiting _ _ => exact ih rfl

namespace Machine

/-- A job comes before another one. -/
def Precedes (ρ : Roles) (i j : JobId) : Prop :=
  ∃ kind kind', ρ.Is i kind ∧ ρ.Is j kind' ∧
    (kind.rank < kind'.rank ∨ kind.rank = kind'.rank ∧ i < j)

section Precedes

variable {ρ : Roles} {i j k : JobId} {kind kind' : JobKind} {r r' : RecordId}

theorem precedes_of_rank_lt (h : ρ.Is i kind) (h' : ρ.Is j kind') (lt : kind.rank < kind'.rank) :
    Precedes ρ i j :=
  ⟨kind, kind', h, h', .inl lt⟩

theorem precedes_of_instantiates (h : ρ.Instantiates i r) (h' : ρ.Is j kind')
    (lt : 0 < kind'.rank) : Precedes ρ i j := by
  rcases h with h | h <;> exact precedes_of_rank_lt h h' lt

theorem precedes_of_links (h : ρ.Links i r) (h' : ρ.Is j (.evaluate r')) : Precedes ρ i j := by
  rcases h with h | h <;> exact precedes_of_rank_lt h h' (Nat.le_of_ble_eq_true rfl)

theorem Precedes.trans (h : Precedes ρ i j) (h' : Precedes ρ j k) : Precedes ρ i k := by
  obtain ⟨a, b, ha, hb, lt⟩ := h
  obtain ⟨b', c, hb', hc, lt'⟩ := h'
  obtain rfl := hb.eq hb'
  refine ⟨a, c, ha, hc, ?_⟩
  rcases lt with lt | ⟨same, lt⟩ <;> rcases lt' with lt' | ⟨same', lt'⟩
  · exact .inl (Nat.lt_trans lt lt')
  · exact .inl (same' ▸ lt)
  · exact .inl (same ▸ lt')
  · exact .inr ⟨same.trans same', Nat.lt_trans lt lt'⟩

theorem Precedes.ne (h : Precedes ρ i j) : i ≠ j := by
  rintro rfl
  obtain ⟨a, b, ha, hb, lt⟩ := h
  obtain rfl := ha.eq hb
  exact lt.elim (Nat.lt_irrefl _) fun h => Nat.lt_irrefl _ h.2

end Precedes

/-! ### Jobs that a module waits for -/

section Collecting

variable {host : Host C M} {ρ ρ' : Roles} {m m' : Machine C M} {trace : List (Machine C M)}
  {j : JobId} {r : RecordId} {jobs : List JobId} {g : GroupId}

/-- The jobs that a module waits for are earlier ones, and execute its dependencies. -/
theorem Traced.of_collecting (h : Traced host ρ (m :: trace))
    (collecting : m.Collecting j r jobs g) :
    ∀ i ∈ jobs, i < j ∧ ∃ d ∈ (m.store.record r).dependencies, ρ.Is i (.execute d) := by
  generalize htrace : m :: trace = states at h
  induction h generalizing m trace with
  | start _ _ _ =>
    cases htrace
    cases collecting with
    | left has => exact absurd has not_has_start
    | about below => exact absurd (List.eq_nil_of_suffix_nil below) (List.cons_ne_nil _ _)
  | @step ρ ρ' m₁ m₂ _ traced step ih =>
    cases htrace
    have linked : ∀ {j}, ρ.Is j (.execute r) →
        (m₂.store.record r).dependencies = (m₁.store.record r).dependencies := fun is =>
      step.onward.dependencies r (traced.barred.executes _ _ is).linked
    rcases step.collecting_cases collecting with collecting | ⟨new, state⟩
    · intro i hi
      obtain ⟨lt, d, hd, is⟩ := ih collecting rfl i hi
      refine ⟨lt, d, ?_, is.mono step.follow.le⟩
      rwa [linked (step.sound.fits_of_collecting collecting).1]
    · cases new with
      | @deferred r' jobs' seen new way next state' groups record =>
        obtain ⟨rfl, rfl, _⟩ : r' = r ∧ jobs' = jobs ∧ _ := by
          simpa using state'.symm.trans state
        obtain ⟨below, _, waits⟩ := traced.descending.of_turn way
        intro i hi
        obtain ⟨d, hd, is⟩ := waits i hi
        refine ⟨?_, d, ?_, is.mono step.follow.le⟩
        · rw [new, ← step.sound.store.kinds]
          exact is.lt
        · rwa [step.onward.dependencies r' (traced.staged.of_turn way)]
      | turn _ _ _ _ state' _ => exact nomatch state'.symm.trans state
      | instantiate _ _ _ state' | link _ _ _ state' | graph _ _ _ state' | ready _ _ _ _ state' =>
        exact nomatch state'.symm.trans state
  | @outside ρ m₁ m₂ _ traced pause ih =>
    cases htrace
    have before : m₁.Collecting j r jobs g := by
      cases collecting with
      | left has => exact .left (pause.has has)
      | about below =>
        rw [pause.stack] at below
        exact absurd (List.eq_nil_of_suffix_nil below) (List.cons_ne_nil _ _)
    rw [pause.change.kept.record]
    exact ih before rfl

end Collecting

/-! ### Jobs that are being advanced -/

/-- What is handed to a slot comes from jobs that come before those that are being advanced. -/
def Climbs (ρ : Roles) (js : List JobId) : Slot → Prop
  | .polled i => ∀ j ∈ js, Precedes ρ i j
  | .work j | .linked j _ _ | .visited j _ => ∃ rest, js = j :: rest ∧ ∀ i ∈ rest, Precedes ρ j i
  | _ => True

section Climbs

variable {host : Host C M} {ρ : Roles} {m : Machine C M} {trace : List (Machine C M)}
  {slot : Slot} {st : List (Frame C)} {i j : JobId} {js : List JobId} {kind : JobKind}

private theorem climbs_polled (h : ∃ rest, js = j :: rest ∧ ∀ k ∈ rest, Precedes ρ j k)
    (before : Precedes ρ i j) : Climbs ρ js (.polled i) := by
  obtain ⟨rest, rfl, later⟩ := h
  exact List.forall_mem_cons.mpr ⟨before, fun k hk => before.trans (later k hk)⟩

/-- The jobs that are being advanced come one before the other. -/
private theorem climbs_of_awaits (h : Awaits ρ slot st) (flat : IsFlat st)
    (earlier : ∀ r jobs g k j below, .executingAfter r jobs g k :: .advancing j :: below <:+ st →
      ∀ i ∈ jobs, i < j) : Climbs ρ (advanced st) slot := by
  induction h with
  | nil => trivial
  | @cons slot slot' frame st fits below ih =>
    have inner := List.suffix_cons frame st
    have ih := ih (flat.of_suffix inner) fun r jobs g k j below h =>
      earlier r jobs g k j below (h.trans inner)
    cases fits with
    | hook _ | body _ | setter | asking | draining | publishing | handingOver _ _ => trivial
    | importing is =>
      obtain rfl := flat _ _ (List.suffix_refl _)
      exact fun _ h => absurd h List.not_mem_nil
    | advancing => exact ⟨advanced st, rfl, ih⟩
    | linking is inst | joining is _ _ _ inst =>
      exact climbs_polled ih (precedes_of_instantiates inst is (Nat.zero_lt_succ _))
    | linkingGraph _ => exact ih
    | linkingNode links =>
      obtain ⟨_, is⟩ := below.evaluates_of_linked
      exact climbs_polled ih (precedes_of_links links is)
    | linkingChildren _ _ _ => exact ih
    | executingGraph _ => exact ih
    | visiting _ _ => exact ih
    | executing is =>
      obtain ⟨_, is'⟩ := below.evaluates_of_visited
      exact climbs_polled ih (precedes_of_rank_lt is is' (Nat.lt_succ_self _))
    | evaluating is is' => exact climbs_polled ih (precedes_of_rank_lt is' is (Nat.lt_succ_self _))
    | @executingAfter j i r jobs g k is owner members member =>
      obtain ⟨st', rfl, _⟩ := below.of_work
      have mem := List.mem_of_getElem? member
      obtain ⟨_, is'⟩ := members i mem
      refine climbs_polled ih ⟨_, _, is', is, .inr ⟨rfl, ?_⟩⟩
      exact earlier r jobs g k j st' (List.suffix_refl _) i mem

/-- Nobody comes to a job that is being advanced, as long as no import is within another
activity. -/
theorem Traced.not_advanced_of_poll (h : Traced host ρ (m :: trace)) (flat : IsFlat m.stack)
    (control : m.control = .poll j) : j ∉ advanced m.stack := by
  have awaits : Awaits ρ (.polled j) m.stack := by
    have fits := h.sound.control
    rwa [control] at fits
  intro mem
  refine (climbs_of_awaits awaits flat (fun r jobs g k j below hb i hi => ?_) j mem).ne rfl
  exact (h.of_collecting (.about hb) i hi).1

end Climbs

end Machine

end ModuleSystem.Loader
