import PetriCheck.Condition.Proposition
import PetriCheck.Search.Mode

/-!
# Property automata

Automata on infinite words of markings, with guards on their edges. A run starts at the initial location and follows an
edge for each marking, the first one included, whose guard holds there. An automaton accepts by reaching an accepting
location, or by visiting accepting locations again and again: which of the two is meant is the choice of the search.

Locations are numbered by 32-bit words, since a location's number is part of the key of a state. Four automata for the
usual properties are given: `reachability`, `invariant`, `persistence` and `recurrence`.
-/

namespace PetriCheck

/-- Why a net, its propositions and an automaton do not go together. -/
inductive ConditionError where
  | missing
  | empty
  | initialOutOfRange (location : UInt32)
  | targetOutOfRange (source target : UInt32)
  | unknownProposition (location : UInt32) (prop : Nat)
  | propositionOutsideNet (prop : Nat) (name : String)
  | guard (text : String) (cause : GuardError)
  | modeMismatch (property : String) (implied requested : SearchMode)
deriving DecidableEq

/-- The text of a location's number. -/
def renderLocation (q : UInt32) : String := s!"q{q}"

namespace ConditionError

def message : ConditionError → String
  | missing => "no property automaton was attached to the checker"
  | empty => "automaton has no locations"
  | initialOutOfRange q => s!"initial location {renderLocation q} does not exist"
  | targetOutOfRange a b => s!"edge {renderLocation a} -> {renderLocation b} targets a missing location"
  | unknownProposition q p => s!"guard at {renderLocation q} references unknown proposition {renderProp p}"
  | propositionOutsideNet p name =>
    s!"proposition `{name}` ({renderProp p}) refers to a place or transition outside the net"
  | guard text cause => s!"guard `{text}` does not parse: {cause.message}"
  | modeMismatch property implied requested =>
    s!"a {property} property is checked in {implied.name} mode, not {requested.name}"

/-- The error behind an error, if there is one. -/
def cause? : ConditionError → Option GuardError
  | guard _ cause => some cause
  | _ => none

end ConditionError

structure Edge where
  guard : Guard
  target : UInt32
deriving Inhabited

structure Location where
  name : String
  accepting : Bool := false
  edges : List Edge := []
deriving Inhabited

structure Automaton where
  locations : Array Location := #[]
  initial : UInt32 := 0
deriving Inhabited

namespace Automaton

/-! ## Building -/

/-- Adds an edge; none if its source is missing. -/
def addEdge? (a : Automaton) (source : UInt32) (edge : Edge) : Option Automaton :=
  if source.toNat < a.locations.size then
    some { a with locations := a.locations.modify source.toNat fun l => { l with edges := l.edges ++ [edge] } }
  else none

/-- The automaton of named locations, the first one initial, and edges between their numbers. -/
def ofLabels? (labels : List (String × Bool)) (edges : List (Nat × Guard × Nat)) : Option Automaton :=
  let bare : Automaton := { locations := (labels.map fun (name, accepting) => { name, accepting }).toArray }
  edges.foldlM (fun a (source, guard, target) => a.addEdge? source.toUInt32 ⟨guard, target.toUInt32⟩) bare

/-- Two locations, the first one initial and the second one accepting. -/
def ofPair (first second : String) (fromFirst fromSecond : List Edge) : Automaton :=
  { locations := #[⟨first, false, fromFirst⟩, ⟨second, true, fromSecond⟩] }

/-- Accepts once a marking satisfies the goal. -/
def reachability (goal : Guard) : Automaton :=
  ofPair "search" "found" [⟨goal.negate, 0⟩, ⟨goal, 1⟩] [⟨.top, 1⟩]

/-- Accepts once a marking is bad: the search takes acceptance as a violation. -/
def safety (bad : Guard) : Automaton := reachability bad

/-- Accepts once a marking is not good. -/
def invariant (good : Guard) : Automaton := safety good.negate

/-- Has an accepting cycle on the runs where `g` holds from some point on. -/
def persistence (g : Guard) : Automaton :=
  ofPair "wait" "stable" [⟨.top, 0⟩, ⟨g, 1⟩] [⟨g, 1⟩]

/-- Has an accepting cycle on the runs where `g` holds again and again. -/
def recurrence (g : Guard) : Automaton :=
  ofPair "idle" "seen" [⟨g.negate, 0⟩, ⟨g, 1⟩] [⟨g, 1⟩, ⟨g.negate, 0⟩]

/-! ## Reading -/

def isAccepting (a : Automaton) (q : UInt32) : Bool :=
  match a.locations[q.toNat]? with
  | some l => l.accepting
  | none => false

/-- The numbers of the accepting locations. -/
def acceptingLocations (a : Automaton) : List Nat :=
  (a.locations.toList.zipIdx.filter (·.1.accepting)).map (·.2)

/-- The targets of the edges whose guard holds, each one once, in the order of the edges. -/
def successors (a : Automaton) (q : UInt32) (holding : PropSet) : List UInt32 :=
  match a.locations[q.toNat]? with
  | some l => ((l.edges.filter (·.guard.eval holding.contains)).map (·.target)).eraseDups
  | none => []

/-! ## Validation -/

/-- The automaton has locations, and the initial one is among them. -/
def validateStart (a : Automaton) : Except ConditionError Unit :=
  if a.locations.isEmpty then .error .empty
  else if a.locations.size ≤ a.initial.toNat then .error (.initialOutOfRange a.initial)
  else .ok ()

/-- The edge leads to a location and speaks of propositions of the table. -/
def validateEdge (a : Automaton) (table : PropositionTable) (source : UInt32) (edge : Edge) :
    Except ConditionError Unit :=
  if a.locations.size ≤ edge.target.toNat then .error (.targetOutOfRange source edge.target)
  else
    match edge.guard.atoms.find? (table.size ≤ ·) with
    | some p => .error (.unknownProposition source p)
    | none => .ok ()

/-- The automaton can be run on the labels of the table; the first fault in order of locations and edges is reported. -/
def validate (a : Automaton) (table : PropositionTable) : Except ConditionError Unit := do
  a.validateStart
  a.locations.toList.zipIdx.forM fun (l, q) => l.edges.forM (a.validateEdge table q.toUInt32)

/-! ## Text -/

def renderEdge (edge : Edge) : String := s!"  --[{edge.guard.render}]--> {renderLocation edge.target}\n"

def render (a : Automaton) : String :=
  let location : Location × Nat → String := fun (l, q) =>
    s!"{renderLocation q.toUInt32} {l.name}" ++ (if l.accepting then " (accepting)" else "") ++ "\n" ++
      String.join (l.edges.map renderEdge)
  s!"init = {renderLocation a.initial}\n" ++ String.join (a.locations.toList.zipIdx.map location)

end Automaton

end PetriCheck
