import PetriCheck.IdMap
import PetriCheck.Search.Frontier
import PetriCheck.Search.Task

/-!
# Worklist search

The search for reachability and safety. States are registered when they are met, and only new ones wait in the frontier.
A step takes one of them, looks whether it is accepting, and else registers its successors.
-/

namespace PetriCheck

/-- The waiting states with their numbers, and which numbers were taken out already. -/
structure Worklist (S : Type) where
  frontier : Frontier (Nat × S)
  expanded : IdMap Bool := .empty

namespace Worklist

variable {S μ β : Type}

def new (strategy : Strategy) (seed : UInt64) (shuffler : Shuffler (Nat × S) := .seeded) : Worklist S :=
  { frontier := .ofSeed strategy seed shuffler }

def waiting (w : Worklist S) : Nat := w.frontier.size

/-- Adds new states that were met together. -/
def enqueue (w : Worklist S) (mem : Memory μ β) (fresh : List (Nat × S)) : Worklist S × Memory μ β :=
  let frontier := w.frontier.pushBatch fresh
  ({ w with frontier }, mem.mapStats (·.observeWaiting frontier.size))

/-- Registers the initial states. -/
def start [DecidableEq S] (task : Task S μ β) (w : Worklist S) (mem : Memory μ β) :
    Except (Interrupt S) Unit × Worklist S × Memory μ β :=
  match mem.discoverAll task task.system.initial with
  | (.error i, mem) => (.error i, w, mem)
  | (.ok fresh, mem) => (.ok (), w.enqueue mem fresh)

/-- Explores a state that was taken out of the frontier. -/
def expand [DecidableEq S] (task : Task S μ β) (w : Worklist S) (mem : Memory μ β) (s : S) :
    Except (Interrupt S) (Progress S) × Worklist S × Memory μ β :=
  if task.system.isAccepting s then (.ok (.accepting s), w, mem)
  else
    match task.system.successors s with
    | .error e => (.error (.fault (.net e)), w, mem)
    | .ok next =>
      match mem.discoverAll task next with
      | (.error i, mem) => (.error i, w, mem)
      | (.ok fresh, mem) => (.ok .going, w.enqueue mem fresh)

/-- Takes the next state out of the frontier and explores it. -/
def advance [DecidableEq S] (task : Task S μ β) (w : Worklist S) (mem : Memory μ β) :
    Except (Interrupt S) (Progress S) × Worklist S × Memory μ β :=
  match w.frontier.pop with
  | none => (.ok .exhausted, w, mem)
  | some ((id, s), frontier) =>
    if w.expanded.get id then (.ok .going, { w with frontier }, mem)
    else
      expand task { frontier, expanded := w.expanded.set id true }
        (mem.mapStats fun stats => (stats.refreshWaiting frontier.size).recordExplored) s

/-- One step: nothing waits, or the budget is asked and a state is explored. -/
def step [DecidableEq S] (task : Task S μ β) (w : Worklist S) (mem : Memory μ β) :
    Except (Interrupt S) (Progress S) × Worklist S × Memory μ β :=
  if w.frontier.isEmpty then (.ok .exhausted, w, mem)
  else
    match mem.askBudget task with
    | (some reason, mem) => (.error (.limit reason), w, mem)
    | (none, mem) => w.advance task mem

end Worklist

end PetriCheck
