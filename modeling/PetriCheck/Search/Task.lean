import PetriCheck.Encoding
import PetriCheck.Search.Budget
import PetriCheck.StateIndex.Insert

/-!
# What all searches share

A `System` is what a search needs to know of the states it walks over: the initial ones, the successors of a state,
which states are accepting, and how many tokens a state has at most on one place. A `Task` adds the encoder, the budget
and the choices that hold for the whole search; `Memory` is what changes as it goes on.

A search registers each state it meets (`Memory.discover`): a state beyond the token bound is left out, any other one
gets its number from the index. On demand the encoder is checked each time: it has to write the same key again, and to
read the key as the same state.
-/

namespace PetriCheck

/-- A transition system, as far as a search looks at it. -/
structure System (S : Type) where
  initial : List S
  successors : S → Except FireError (List S)
  isAccepting : S → Bool
  /-- The largest number of tokens on a place. -/
  load : S → UInt64

/-- The product as a transition system. -/
def Product.system (x : Product) : System ProductState where
  initial := x.initialStates
  successors := x.successors
  isAccepting := x.isAccepting
  load s := s.marking.maxTokens

/-! ## Errors -/

/-- How an encoder may break its promise. -/
inductive EncodingFault (S : Type) where
  | unstable (state : S)
  | shared (state other : S) (key : Key)
  | unreadable (state : S) (key : Key)

/-- What ends a search for good. -/
inductive CheckError (S : Type) where
  | encoding (fault : EncodingFault S)
  | condition (cause : ConditionError)
  | net (cause : FireError)
  | index (cause : IndexError)
  /-- A position outside the stack of a search: no search meets it. -/
  | stack (position : Nat)
  | aborted

/-- Why a step is not finished: a limit, or an error. -/
inductive Interrupt (S : Type) where
  | limit (reason : LimitReason)
  | fault (error : CheckError S)

/-- An index that cannot grow is a limit; all else is an error. -/
def Interrupt.ofIndexError {S : Type} : IndexError → Interrupt S
  | .allocation _ => .limit .allocationFailure
  | e => .fault (.index e)

/-- How a search stands after a step. -/
inductive Progress (S : Type) where
  | going
  /-- The acceptance condition is met; the state shows it. -/
  | accepting (state : S)
  | exhausted

/-! ## Tasks -/

/-- What stays the same during a search. -/
structure Task (S μ β : Type) where
  system : System S
  encoder : Encoder S μ
  budget : Budget β
  tokenBound : Option UInt64 := none
  verify : Bool := false

/-- What changes during a search, whatever its algorithm. -/
structure Memory (μ β : Type) where
  index : StateIndex
  stats : Statistics := {}
  /-- Whether a state was left out because of the token bound. -/
  truncated : Bool := false
  encoder : μ
  budget : β

namespace Memory

variable {S μ β : Type}

/-- Whether a state lies beyond the token bound. -/
def beyond (task : Task S μ β) (s : S) : Bool :=
  match task.tokenBound with
  | some bound => decide (bound < task.system.load s)
  | none => false

/-- Asks the budget. -/
def askBudget (task : Task S μ β) (mem : Memory μ β) : Option LimitReason × Memory μ β :=
  let (reason, budget) := task.budget.query mem.stats mem.budget
  (reason, { mem with budget })

/-- Writes a state as a key. -/
def encode (task : Task S μ β) (mem : Memory μ β) (s : S) : Key × Memory μ β :=
  let (key, encoder) := task.encoder.encode s mem.encoder
  (key, { mem with encoder })

/-- What a second look at the encoder shows, where `again` is the key that it writes now. -/
def encodingFault [DecidableEq S] (task : Task S μ β) (s : S) (key again : Key) : Option (EncodingFault S) :=
  if again ≠ key then some (.unstable s)
  else
    match task.encoder.decode key with
    | some other => if other = s then none else some (.shared s other key)
    | none => some (.unreadable s key)

/-- Checks the encoder on a state that was written as `key`, if the task asks for it. -/
def verify [DecidableEq S] (task : Task S μ β) (mem : Memory μ β) (s : S) (key : Key) :
    Option (EncodingFault S) × Memory μ β :=
  if task.verify then
    let (again, mem) := mem.encode task s
    (encodingFault task s key again, mem)
  else (none, mem)

/-- Counts a state that is new. -/
def count (mem : Memory μ β) (found : Lookup) : Memory μ β :=
  if found.alreadyPresent then mem else { mem with stats := mem.stats.recordDiscovered }

/-- Registers a state; none if it lies beyond the token bound. -/
def discover [DecidableEq S] (task : Task S μ β) (mem : Memory μ β) (s : S) :
    Except (Interrupt S) (Option Lookup) × Memory μ β :=
  if beyond task s then (.ok none, { mem with truncated := true })
  else
    let (key, mem) := mem.encode task s
    match mem.index.insert key with
    | (.error e, index) => (.error (.ofIndexError e), { mem with index })
    | (.ok found, index) =>
      match ({ mem with index } : Memory μ β).verify task s key with
      | (some fault, mem) => (.error (.fault (.encoding fault)), mem)
      | (none, mem) => (.ok (some found), mem.count found)

/-- The number of a state that was registered. -/
def find (task : Task S μ β) (mem : Memory μ β) (s : S) : Except (Interrupt S) (Option Nat) × Memory μ β :=
  let (key, mem) := mem.encode task s
  match mem.index.find key with
  | .error e => (.error (.ofIndexError e), mem)
  | .ok id => (.ok id, mem)

/-- Registers states in order; gives those that are new, with their numbers. -/
def discoverAll [DecidableEq S] (task : Task S μ β) :
    List S → Memory μ β → Except (Interrupt S) (List (Nat × S)) × Memory μ β
  | [], mem => (.ok [], mem)
  | s :: rest, mem =>
    match mem.discover task s with
    | (.error i, mem) => (.error i, mem)
    | (.ok found, mem) =>
      match discoverAll task rest mem with
      | (.error i, mem) => (.error i, mem)
      | (.ok fresh, mem) =>
        match found with
        | some ⟨false, id⟩ => (.ok ((id, s) :: fresh), mem)
        | _ => (.ok fresh, mem)

/-- Changes the statistics. -/
def mapStats (mem : Memory μ β) (f : Statistics → Statistics) : Memory μ β := { mem with stats := f mem.stats }

end Memory

end PetriCheck
