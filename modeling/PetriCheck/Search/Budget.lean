import PetriCheck.Search.Statistics

/-!
# Budgets

A search asks its budget before each piece of work whether it has to stop, and why. A budget may answer from a memory of
its own. `Limits` stop after a number of explored states, after a time, or above an amount of memory; the time and the
memory in use are readings that the surroundings of the search put into its `Meter`.
-/

namespace PetriCheck

/-- Why a search ends without a verdict. -/
inductive LimitReason where
  | stateLimit
  | timeLimit
  | memoryLimit
  /-- States beyond the token bound were left out. -/
  | tokenBound
  /-- The state index cannot grow. -/
  | allocationFailure
deriving DecidableEq, Inhabited

namespace LimitReason

def all : List LimitReason := [stateLimit, timeLimit, memoryLimit, tokenBound, allocationFailure]

/-- The name of a reason in reports. -/
def name : LimitReason → String
  | stateLimit => "StateLimit"
  | timeLimit => "TimeLimit"
  | memoryLimit => "MemoryLimit"
  | tokenBound => "TokenBound"
  | allocationFailure => "AllocationFailure"

def render : LimitReason → String
  | stateLimit => "state limit reached"
  | timeLimit => "time limit reached"
  | memoryLimit => "memory limit reached"
  | tokenBound => "token bound exceeded"
  | allocationFailure => "state index allocation failed"

end LimitReason

/-- A budget with a memory `β`: what it does at the start, and its answer to a query. -/
structure Budget (β : Type) where
  start : β → β
  query : Statistics → β → Option LimitReason × β

namespace Budget

/-- The budget that never stops a search. -/
def unlimited : Budget Unit := ⟨id, fun _ b => (none, b)⟩

/-- The budget that answers from the statistics alone. -/
def ofFunction (exceeded : Statistics → Option LimitReason) : Budget Unit := ⟨id, fun s b => (exceeded s, b)⟩

end Budget

/-- What limits look at: the queries so far, the time since the start in nanoseconds, and the memory in use in
megabytes, if it is known. -/
structure Meter where
  queries : Nat := 0
  elapsed : Nat := 0
  resident : Option Nat := none
deriving DecidableEq, Inhabited

/-- Bounds on the explored states, on the time in nanoseconds, and on the memory in megabytes. -/
structure Limits where
  maxStates : Option Nat := none
  timeLimit : Option Nat := none
  memoryLimit : Option Nat := none
deriving DecidableEq, Inhabited

namespace Limits

/-- The memory in use is looked at on every query whose number is a multiple of this. -/
def memoryInterval : Nat := 1024

/-- Whether a limit is there and reached. -/
def reached (limit : Option Nat) (value : Nat) : Bool :=
  match limit with
  | some bound => decide (bound ≤ value)
  | none => false

/-- The first limit that is reached: states, then time, then memory. -/
def exceeded (l : Limits) (s : Statistics) (m : Meter) : Option LimitReason :=
  if reached l.maxStates s.explored then some .stateLimit
  else if reached l.timeLimit m.elapsed then some .timeLimit
  else if m.queries % memoryInterval = 0 ∧ (m.resident.any (reached l.memoryLimit)) then some .memoryLimit
  else none

/-- The limits as a budget, which counts the queries. -/
def budget (l : Limits) : Budget Meter where
  start m := { m with queries := 0 }
  query s m :=
    let m := { m with queries := m.queries + 1 }
    (l.exceeded s m, m)

end Limits

end PetriCheck
