import PetriCheck.Net.Incidence

/-!
# Place/transition nets

A net has places, each with its initial tokens and perhaps a capacity, and transitions. The matrices `pre` and `post`
say how many tokens a transition takes from a place and puts into it. Two further matrices, absent until the first arc
of their kind is set, mark inhibitor arcs, which ask for fewer tokens than `pre` says, and reset arcs, which empty a
place. Places and transitions are numbered from 0 in the order in which they are added.

A net is built from `Net.empty` by adding places and transitions and by setting weights and arcs; a net from a file may
have matrices that do not fit, which `Net.wellFormed` finds out.
-/

namespace PetriCheck

/-- A place with its initial tokens; no capacity means no bound. -/
structure Place where
  name : String
  tokens : UInt64
  capacity : Option UInt64 := none
deriving DecidableEq, Inhabited

structure Transition where
  name : String
deriving DecidableEq, Inhabited

/-- The number of tokens on each place. -/
structure Marking where
  tokens : Array UInt64 := #[]
deriving DecidableEq, Inhabited

/-- The text of a place's number in messages. -/
def describePlace (p : Nat) : String := s!"PlaceId({p},)"

/-- The text of a transition's number in messages. -/
def describeTransition (t : Nat) : String := s!"TransitionId({t},)"

namespace Marking

def size (m : Marking) : Nat := m.tokens.size

def isEmpty (m : Marking) : Bool := m.tokens.isEmpty

/-- The tokens on a place; a place outside the marking has none. -/
def count (m : Marking) (p : Nat) : UInt64 := m.tokens[p]?.getD 0

/-- The largest number of tokens on a place. -/
def maxTokens (m : Marking) : UInt64 := m.tokens.foldl max 0

/-- The places that hold tokens, with how many. -/
def support (m : Marking) : List (Nat × UInt64) :=
  (m.tokens.toList.zipIdx.map fun (n, p) => (p, n)).filter fun (_, n) => n > 0

/-- The text of a marking: its marked places. -/
def describe (m : Marking) : String :=
  let marked := m.support.map fun (p, n) => s!"{describePlace p}: {n}"
  "\x7b" ++ ", ".intercalate marked ++ "\x7d"

end Marking

/-- A place/transition net with weights, capacities, inhibitor arcs and reset arcs. -/
structure Net where
  places : Array Place := #[]
  transitions : Array Transition := #[]
  pre : Incidence UInt64 := {}
  post : Incidence UInt64 := {}
  inhibitor : Option (Incidence Bool) := none
  reset : Option (Incidence Bool) := none
deriving Inhabited

namespace Net

def empty : Net := {}

/-! ## Building -/

/-- Adds a place without arcs, and gives its number, which is the next one. -/
def addPlace (net : Net) (place : Place) : Nat × Net :=
  (net.places.size,
    { places := net.places.push place
      transitions := net.transitions
      pre := net.pre.addPlace 0
      post := net.post.addPlace 0
      inhibitor := net.inhibitor.map (·.addPlace false)
      reset := net.reset.map (·.addPlace false) })

/-- Adds a transition without arcs, and gives its number, which is the next one. -/
def addTransition (net : Net) (transition : Transition) : Nat × Net :=
  (net.transitions.size,
    { places := net.places
      transitions := net.transitions.push transition
      pre := net.pre.addTransition 0
      post := net.post.addTransition 0
      inhibitor := net.inhibitor.map (·.addTransition false)
      reset := net.reset.map (·.addTransition false) })

/-- Sets how many tokens `t` takes from `p`. -/
def setInput? (net : Net) (p t : Nat) (weight : UInt64) : Option Net := do
  some { net with pre := ← net.pre.set? p t weight }

/-- Sets how many tokens `t` puts into `p`. -/
def setOutput? (net : Net) (p t : Nat) (weight : UInt64) : Option Net := do
  some { net with post := ← net.post.set? p t weight }

/-- A matrix of arcs that has the shape of the net's weights, without an arc unless there are some already. -/
def arcs (net : Net) (matrix : Option (Incidence Bool)) : Incidence Bool :=
  matrix.getD (.new net.pre.places net.pre.transitions false)

/-- The net with a matrix of inhibitor arcs. -/
def withInhibitors (net : Net) : Net := { net with inhibitor := some (net.arcs net.inhibitor) }

/-- The net with a matrix of reset arcs. -/
def withResets (net : Net) : Net := { net with reset := some (net.arcs net.reset) }

/-- Makes the arc from `p` to `t` an inhibitor arc, or an ordinary one again. -/
def setInhibitor? (net : Net) (p t : Nat) (on : Bool) : Option Net := do
  some { net with inhibitor := some (← (net.arcs net.inhibitor).set? p t on) }

/-- Makes `t` empty the place `p` when it fires, or not any more. -/
def setReset? (net : Net) (p t : Nat) (on : Bool) : Option Net := do
  some { net with reset := some (← (net.arcs net.reset).set? p t on) }

/-! ## Reading -/

/-- A matrix of weights fits the net: a row per place and a column per transition. -/
def fits (net : Net) (m : Incidence UInt64) : Bool :=
  m.wellFormed && m.places == net.places.size && m.transitions == net.transitions.size

/-- The weight matrices fit the places and transitions. -/
def wellFormed (net : Net) : Bool := net.fits net.pre && net.fits net.post

def initialMarking (net : Net) : Marking := ⟨net.places.map (·.tokens)⟩

/-- How many tokens `t` takes from `p`. -/
def input (net : Net) (p t : Nat) : UInt64 := net.pre.getD p t 0

/-- How many tokens `t` puts into `p`. -/
def output (net : Net) (p t : Nat) : UInt64 := net.post.getD p t 0

/-- Whether `t` asks for fewer tokens on `p` than the weight of the arc. -/
def inhibits (net : Net) (p t : Nat) : Bool :=
  match net.inhibitor with
  | some m => m.getD p t false
  | none => false

/-- Whether `t` empties `p`. -/
def resets (net : Net) (p t : Nat) : Bool :=
  match net.reset with
  | some m => m.getD p t false
  | none => false

/-- The capacity of a place, if it has one. -/
def capacity? (net : Net) (p : Nat) : Option UInt64 := do (← net.places[p]?).capacity

/-! ## Text -/

def describeOption (o : Option UInt64) : String :=
  match o with
  | some n => s!"Some({n})"
  | none => "None"

def describe (net : Net) : String :=
  let place (p : Place) : String := Text.fields "Place"
    [("name", Text.quoted p.name), ("tokens", toString p.tokens), ("capacity", describeOption p.capacity)]
  let transition (t : Transition) : String := s!"Transition({Text.quoted t.name})"
  let matrix (m : Incidence UInt64) : String := m.describe "Incidence" toString
  Text.fields "Net"
    [("places", Text.bracketed (net.places.toList.map place)),
     ("transitions", Text.bracketed (net.transitions.toList.map transition)),
     ("pre", matrix net.pre), ("post", matrix net.post)]

end Net

end PetriCheck
