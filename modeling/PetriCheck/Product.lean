import PetriCheck.Condition.Automaton

/-!
# The product of a net and an automaton

A product state is a marking together with the location at which the automaton stands after it has read all markings up
to and including this one. A step fires an enabled transition, or stays where it is if none is enabled, and lets the
automaton read the new marking.
-/

namespace PetriCheck

structure ProductState where
  marking : Marking
  location : UInt32
deriving DecidableEq, Inhabited

/-- The text of a product state. -/
def ProductState.describe (s : ProductState) : String := s!"({s.marking.describe}, {renderLocation s.location})"

/-- A net, the propositions on its markings, and an automaton that reads them. -/
structure Product where
  net : Net
  table : PropositionTable
  automaton : Automaton
deriving Inhabited

namespace Product

/-- The propositions speak of the net only. -/
def validateTable (net : Net) (table : PropositionTable) : Except ConditionError Unit :=
  match table.stray? net with
  | some (p, named) => .error (.propositionOutsideNet p named.name)
  | none => .ok ()

/-- Puts the three parts together if they fit. -/
def new (net : Net) (table : PropositionTable) (automaton : Automaton) : Except ConditionError Product := do
  validateTable net table
  automaton.validate table
  .ok ⟨net, table, automaton⟩

/-- Puts the three parts together without a look at the automaton's edges. -/
def newLenient (net : Net) (table : PropositionTable) (automaton : Automaton) : Except ConditionError Product := do
  validateTable net table
  automaton.validateStart
  .ok ⟨net, table, automaton⟩

/-- Puts the parts together; the automaton may not be missing. -/
def assemble (lenient : Bool) (net : Net) (table : PropositionTable) : Option Automaton → Except ConditionError Product
  | none => .error .missing
  | some automaton => if lenient then newLenient net table automaton else new net table automaton

def label (x : Product) (m : Marking) : PropSet := x.table.label x.net m

def isAccepting (x : Product) (s : ProductState) : Bool := x.automaton.isAccepting s.location

/-- The states in which the automaton, standing at `q`, may be after reading a marking. -/
def read (x : Product) (q : UInt32) (m : Marking) : List ProductState :=
  (x.automaton.successors q (x.label m)).map fun q => ⟨m, q⟩

def initialStates (x : Product) : List ProductState := x.read x.automaton.initial x.net.initialMarking

/-- The markings after a step: one for each enabled transition, or the same marking if there is none. -/
def nextMarkings (x : Product) (m : Marking) : Except FireError (List Marking) :=
  match x.net.enabled m with
  | [] => .ok [m]
  | ts => ts.mapM (x.net.fire m)

/-- The states after a step, by transition and then by edge. -/
def successors (x : Product) (s : ProductState) : Except FireError (List ProductState) := do
  let markings ← x.nextMarkings s.marking
  .ok (markings.flatMap (x.read s.location))

end Product

end PetriCheck
