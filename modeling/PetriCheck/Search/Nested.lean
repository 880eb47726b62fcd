import PetriCheck.IdMap
import PetriCheck.Search.Task

/-!
# Accepting cycles by nested search

The blue search is a depth-first search over all states. When it is about to leave an accepting state, a red search
starts from there; if the red search meets a state of the blue path, there is a cycle through the accepting state. What
one red search has seen the next ones do not look at again.
-/

namespace PetriCheck

/-- A state of the blue path: its number, the successors that were not looked at, and whether its red search was
started. -/
structure BlueState (S : Type) where
  id : Nat
  state : S
  pending : List S
  redStarted : Bool := false

structure Nested (S : Type) where
  roots : List (Nat × S) := []
  /-- The blue path, deepest state first. -/
  blue : List (BlueState S) := []
  /-- The red path, deepest state first, as the successors that were not looked at. -/
  red : List (List S) := []
  visited : IdMap Bool := .empty
  onBlue : IdMap Bool := .empty
  redSeen : IdMap Bool := .empty

namespace Nested

variable {S μ β : Type}

def new : Nested S := {}

def waiting (x : Nested S) : Nat := x.blue.length

/-- Registers the initial states. -/
def start [DecidableEq S] (task : Task S μ β) (x : Nested S) (mem : Memory μ β) :
    Except (Interrupt S) Unit × Nested S × Memory μ β :=
  match mem.discoverAll task task.system.initial with
  | (.error i, mem) => (.error i, x, mem)
  | (.ok fresh, mem) => (.ok (), { x with roots := fresh }, mem.mapStats (·.observeWaiting fresh.length))

/-- Enters a state with the blue search. -/
def pushBlue (task : Task S μ β) (x : Nested S) (mem : Memory μ β) (id : Nat) (s : S) :
    Except (Interrupt S) (Progress S) × Nested S × Memory μ β :=
  let x := { x with visited := x.visited.set id true, onBlue := x.onBlue.set id true }
  match task.system.successors s with
  | .error e => (.error (.fault (.net e)), x, mem)
  | .ok pending =>
    let x := { x with blue := { id, state := s, pending } :: x.blue }
    (.ok .going, x, mem.mapStats (·.observeWaiting x.blue.length))

/-- Looks at a blue edge to a state. -/
def followBlue [DecidableEq S] (task : Task S μ β) (x : Nested S) (mem : Memory μ β) (s : S) :
    Except (Interrupt S) (Progress S) × Nested S × Memory μ β :=
  match mem.discover task s with
  | (.error i, mem) => (.error i, x, mem)
  | (.ok none, mem) => (.ok .going, x, mem)
  | (.ok (some found), mem) =>
    if x.visited.get found.id then (.ok .going, x, mem) else x.pushBlue task mem found.id s

/-- Starts the red search of the deepest state of the blue path. -/
def startRed (task : Task S μ β) (x : Nested S) (mem : Memory μ β) (top : BlueState S) (rest : List (BlueState S)) :
    Except (Interrupt S) (Progress S) × Nested S × Memory μ β :=
  let x := { x with blue := { top with redStarted := true } :: rest }
  match task.system.successors top.state with
  | .error e => (.error (.fault (.net e)), x, mem)
  | .ok pending => (.ok .going, { x with redSeen := x.redSeen.set top.id true, red := pending :: x.red }, mem)

/-- Leaves the deepest state of the blue path. -/
def popBlue (x : Nested S) (mem : Memory μ β) (top : BlueState S) (rest : List (BlueState S)) :
    Except (Interrupt S) (Progress S) × Nested S × Memory μ β :=
  (.ok .going, { x with blue := rest, onBlue := x.onBlue.set top.id false },
    mem.mapStats fun stats => stats.recordExplored.refreshWaiting rest.length)

/-- A step of the blue search, at the deepest state of its path. -/
def blueStep [DecidableEq S] (task : Task S μ β) (x : Nested S) (mem : Memory μ β) (top : BlueState S)
    (rest : List (BlueState S)) : Except (Interrupt S) (Progress S) × Nested S × Memory μ β :=
  match top.pending with
  | s :: pending => followBlue task { x with blue := { top with pending } :: rest } mem s
  | [] =>
    if !top.redStarted && task.system.isAccepting top.state then x.startRed task mem top rest
    else x.popBlue mem top rest

/-- A step of the red search, where `pending` belongs to the deepest state of its path. -/
def redStep (task : Task S μ β) (x : Nested S) (mem : Memory μ β) (pending : List S) (rest : List (List S)) :
    Except (Interrupt S) (Progress S) × Nested S × Memory μ β :=
  match pending with
  | [] => (.ok .going, { x with red := rest }, mem)
  | s :: pending =>
    let x := { x with red := pending :: rest }
    -- The blue search has registered all that the red one can reach, but for states beyond the token bound.
    match mem.find task s with
    | (.error i, mem) => (.error i, x, mem)
    | (.ok none, mem) => (.ok .going, x, mem)
    | (.ok (some id), mem) =>
      if x.onBlue.get id then (.ok (.accepting s), x, mem)
      else if x.redSeen.get id then (.ok .going, x, mem)
      else
        let x := { x with redSeen := x.redSeen.set id true }
        match task.system.successors s with
        | .error e => (.error (.fault (.net e)), x, mem)
        | .ok pending => (.ok .going, { x with red := pending :: x.red }, mem)

/-- Starts the blue search from the next initial state that was not visited; the ones before it are done with. -/
def nextRoot (task : Task S μ β) (x : Nested S) (mem : Memory μ β) :
    Except (Interrupt S) (Progress S) × Nested S × Memory μ β :=
  match x.roots.dropWhile fun (id, _) => x.visited.get id with
  | [] => (.ok .exhausted, { x with roots := [] }, mem)
  | (id, s) :: roots =>
    let x := { x with roots }
    match mem.askBudget task with
    | (some reason, mem) => (.error (.limit reason), x, mem)
    | (none, mem) => x.pushBlue task mem id s

/-- One step: of the red search if it is on its way, else of the blue one. -/
def step [DecidableEq S] (task : Task S μ β) (x : Nested S) (mem : Memory μ β) :
    Except (Interrupt S) (Progress S) × Nested S × Memory μ β :=
  match x.red, x.blue with
  | [], [] => x.nextRoot task mem
  | pending :: rest, _ =>
    match mem.askBudget task with
    | (some reason, mem) => (.error (.limit reason), x, mem)
    | (none, mem) => x.redStep task mem pending rest
  | [], top :: rest =>
    match mem.askBudget task with
    | (some reason, mem) => (.error (.limit reason), x, mem)
    | (none, mem) => x.blueStep task mem top rest

end Nested

end PetriCheck
