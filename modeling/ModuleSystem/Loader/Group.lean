import ModuleSystem.Loader.Record

/-!
# Groups

Several activities that are waited for together are a group. They are advanced in attempts, one
member after the other. Of a *few*, every attempt advances all members that are left, in order. Of
*many*, an attempt advances those that are due: all of them at first, and later those that have been
told that they can go on, in the order in which they were told.

An attempt at many is broken off, and its caller told to come back, when as many members had to wait
as were left after the last one ended, or when two of those were due again at once.

A group can fail. Of a few, the first failure to be seen counts. Of many, the results are taken in
order, and a failure counts when all members before it have ended.
-/

namespace ModuleSystem.Loader

/-- The number of a group. -/
abbrev GroupId := Nat

/-- Who is told that something can go on. -/
inductive Listener where
  | nobody
  /-- A job, which tells those that wait for it. -/
  | job (job : JobId)
  /-- A member of a group of many, which becomes due. -/
  | member (group : GroupId) (index : Nat)
deriving DecidableEq

/-- How many activities are waited for as a few. -/
def fewAtMost : Nat := 30

/-- Activities that are waited for together, known by their indices. -/
structure Group where
  size : Nat
  /-- The members that have not ended, in order. -/
  left : List Nat
  /-- The members to be advanced, in order. -/
  due : List Nat
  /-- The errors with which members have ended. -/
  errors : List (Option LoaderError)
  /-- Who is told, once, when a member becomes due. -/
  caller : Listener := .nobody
  /-- The member that is being advanced. -/
  current : Option Nat := none
  /-- Whether the current member has become due again. -/
  isStirred : Bool := false
  /-- How many members have become due again while they were advanced. -/
  stirs : Nat := 0
  /-- How many members may still have to wait before the attempt is broken off. -/
  patience : Nat := 0
  /-- Whether the attempt is broken off. -/
  isResting : Bool := false

namespace Group

/-- A group of the given size, none of whose members has been advanced. -/
def ofSize (n : Nat) : Group where
  size := n
  left := List.range n
  due := List.range n
  errors := List.replicate n none

/-- Whether the members are waited for as many. -/
def isMany (g : Group) : Bool :=
  fewAtMost < g.size

/-- Whether all members have ended. -/
def isOver (g : Group) : Bool :=
  g.left.isEmpty

/-- The error that the group fails with. -/
def failure? (g : Group) : Option LoaderError :=
  let taken := if g.isMany then g.errors.take (g.left.head?.getD g.size) else g.errors
  taken.findSome? id

/-- The group with the bounds of an attempt set anew. -/
def renew (g : Group) (caller : Listener) : Group :=
  { g with caller, current := none, stirs := 0, patience := g.left.length, isResting := false }

/-- The group at the start of an attempt. -/
def start (g : Group) (caller : Listener) : Group :=
  let g := g.renew caller
  if g.isMany then g else { g with due := g.left }

/-- The next member to be advanced in an attempt, with its index, and the group meanwhile. -/
def next? {α : Type} (members : List α) (g : Group) : Option (α × Nat × Group) :=
  match g.due with
  | [] => none
  | i :: due =>
    if g.isResting then none
    else members[i]?.map fun member =>
      (member, i, { g with due, current := some i, isStirred := false })

/-- The group after the current member has ended. -/
def memberEnded (g : Group) (i : Nat) (error : Option LoaderError) (caller : Listener) : Group :=
  let left := g.left.erase i
  { g with left, due := g.due.erase i, errors := g.errors.set i error }.renew caller

/-- The group after the current member has had to wait. -/
def memberWaits (g : Group) : Group :=
  let stirs := if g.isStirred then g.stirs + 1 else g.stirs
  let patience := g.patience - 1
  { g with current := none, stirs, patience
           isResting := g.isMany && (2 ≤ stirs || patience == 0) }

/-- The group after a member has been told that it can go on, and who is to be told of that. -/
def call (g : Group) (i : Nat) : Group × Listener :=
  let g := if g.current = some i then { g with isStirred := true } else g
  if g.left.contains i && !g.due.contains i then
    ({ g with due := g.due ++ [i], caller := .nobody }, g.caller)
  else (g, .nobody)

end Group

end ModuleSystem.Loader
