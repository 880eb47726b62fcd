import PetriCheck.Key
import PetriCheck.StateIndex.Pool

/-!
# The state index: nodes, entries and look-up

The visited set of a search: a binary trie over framed keys. A node branches on one bit position, its depth; each of its
two sides is empty, leads to a child node, or is a bucket of entries sorted by what is left of their keys. An entry
keeps only a number in the pool of shared remainders and how many of the remainder's first bits the path to the entry
has used up since it was stored.

Entries and nodes are numbered from 0, entries in order of insertion and nodes in order of allocation. This module holds
the data, the descent to a bucket (`StateIndex.locate`) and what is read from it: `find`, `contains`, `path` and the key
of an entry, rebuilt along the parents (`key?`).
-/

namespace PetriCheck

/-- Why the index refuses an operation. -/
inductive IndexError where
  /-- Something cannot grow: nodes, state numbers, or what a visitor collects. -/
  | allocation (resource : String)
  | keyTooLong (bits : Nat)
  | inconsistent (detail : String)
  /-- A number that is not there: no operation on an index built by insertions meets it. -/
  | outOfRange (what : String) (number : Nat)
deriving DecidableEq

namespace IndexError

def message : IndexError → String
  | allocation resource => s!"allocation failure: cannot grow {resource}"
  | keyTooLong bits => s!"key of {bits} bits exceeds the addressable length"
  | inconsistent detail => s!"state index is inconsistent: {detail}"
  | outOfRange what number => s!"state index is inconsistent: no {what} {number}"

end IndexError

/-- The text of a node number in messages. -/
def describeNode (n : Nat) : String := s!"NodeId({n},)"

/-- The text of a state number in messages. -/
def describeState (s : Nat) : String := s!"StateId({s},)"

/-- One of the two continuations of a node. -/
inductive Side where
  | empty
  | branch (child : Nat)
  | bucket (members : List Nat)
deriving DecidableEq, Inhabited

/-- A node branches on bit `depth`; all but the root know their parent and the side they hang on. -/
structure Node where
  parent : Option (Nat × Bool)
  depth : Nat
  low : Side := .empty
  high : Side := .empty
deriving Inhabited

namespace Node

def side (n : Node) (b : Bool) : Side := if b then n.high else n.low

def setSide (n : Node) (b : Bool) (s : Side) : Node := if b then { n with high := s } else { n with low := s }

end Node

/-- A stored key: its bucket, its remainder, and how many bits of the remainder the path has used up. -/
structure Entry where
  node : Nat
  side : Bool
  remainder : Nat
  skip : Nat := 0
deriving Inhabited

/-- What an insertion reports. -/
structure Lookup where
  alreadyPresent : Bool
  id : Nat
deriving DecidableEq

/-- The default size above which a bucket is split. -/
def defaultSplitThreshold : Nat := 32

/-- The set of keys seen so far, numbered by first insertion. -/
structure StateIndex where
  nodes : Array Node := #[⟨none, 0, .empty, .empty⟩]
  entries : Array Entry := #[]
  remainders : Pool := Pool.empty
  threshold : Nat := defaultSplitThreshold
  nodeLimit : Option Nat := none

namespace StateIndex

/-- The empty index; a bucket above `threshold` entries (at least one) is split. -/
def new (threshold : Nat) (nodeLimit : Option Nat) : StateIndex :=
  { threshold := Nat.max threshold 1, nodeLimit }

instance : Inhabited StateIndex := ⟨{}⟩

def root : Nat := 0

def size (x : StateIndex) : Nat := x.entries.size

def isEmpty (x : StateIndex) : Bool := x.entries.isEmpty

def nodeCount (x : StateIndex) : Nat := x.nodes.size

def remainderCount (x : StateIndex) : Nat := x.remainders.size

/-! ## Access -/

def node (x : StateIndex) (n : Nat) : Except IndexError Node :=
  match x.nodes[n]? with
  | some node => .ok node
  | none => .error (.outOfRange "node" n)

def entry (x : StateIndex) (id : Nat) : Except IndexError Entry :=
  match x.entries[id]? with
  | some entry => .ok entry
  | none => .error (.outOfRange "entry" id)

/-- The part of an entry's remainder that lies below its bucket. -/
def suffixOf (x : StateIndex) (e : Entry) : Except IndexError Bits :=
  match x.remainders.get? e.remainder with
  | some bits => if e.skip ≤ bits.length then .ok (bits.drop e.skip) else .error (.outOfRange "skip" e.skip)
  | none => .error (.outOfRange "remainder" e.remainder)

/-- What is left, below its bucket, of the key of a state. -/
def suffix (x : StateIndex) (id : Nat) : Except IndexError Bits := do
  x.suffixOf (← x.entry id)

/-! ## Descent -/

/-- The framed bits of a key, or the complaint that it is too long. -/
def framed (k : Key) : Except IndexError Bits :=
  match k.frame? with
  | some bits => .ok bits
  | none => .error (.keyTooLong k.bits)

/-- Where the descent along a key ends: the bucket's node and side, the bits below it, and the nodes passed. -/
structure Spot where
  node : Nat
  side : Bool
  suffix : Bits
  trail : List Nat

/-- Follows the bits from node `n` until a side that is not a branch. -/
def descend (x : StateIndex) : Nat → Bits → Except IndexError Spot
  | n, [] => do
    let node ← x.node n
    .error (.inconsistent s!"key ends inside the tree at bit {node.depth}")
  | n, b :: bits => do
    let node ← x.node n
    match node.side b with
    | .branch child =>
      let spot ← x.descend child bits
      .ok { spot with trail := n :: spot.trail }
    | _ => .ok ⟨n, b, bits, [n]⟩

/-- A seat in a bucket: the state that is there, or the position at which a new one belongs. -/
inductive Seat where
  | found (id : Nat)
  | vacant (position : Nat)
deriving DecidableEq

/-- Looks for a suffix in a sorted bucket whose first members, `position` many, were passed already. -/
def seek (x : StateIndex) (suffix : Bits) : List Nat → Nat → Except IndexError Seat
  | [], position => .ok (.vacant position)
  | id :: ids, position => do
    match Bits.compare (← x.suffix id) suffix with
    | .lt => x.seek suffix ids (position + 1)
    | .eq => .ok (.found id)
    | .gt => .ok (.vacant position)

/-- The members of a side; a side without a bucket has none. -/
def membersOf : Side → List Nat
  | .bucket members => members
  | _ => []

/-- The spot of a key, and the seat of the key in the bucket there. -/
def locate (x : StateIndex) (k : Key) : Except IndexError (Spot × Seat) := do
  let bits ← framed k
  let spot ← x.descend root bits
  let node ← x.node spot.node
  let seat ← x.seek spot.suffix (membersOf (node.side spot.side)) 0
  .ok (spot, seat)

/-- The number of a stored key. -/
def find (x : StateIndex) (k : Key) : Except IndexError (Option Nat) := do
  match ← x.locate k with
  | (_, .found id) => .ok (some id)
  | (_, .vacant _) => .ok none

def contains (x : StateIndex) (k : Key) : Except IndexError Bool := do
  .ok (← x.find k).isSome

/-- The nodes passed when looking for a key. -/
def path (x : StateIndex) (k : Key) : Except IndexError (List Nat) := do
  let bits ← framed k
  .ok (← x.descend root bits).trail

/-! ## Rebuilding keys -/

/-- The bits on the way from the root to node `n`. A parent was allocated before its children. -/
def bitsTo? (x : StateIndex) (n : Nat) : Option Bits :=
  match x.nodes[n]? with
  | none => none
  | some node =>
    match node.parent with
    | none => some []
    | some (parent, side) =>
      if parent < n then (x.bitsTo? parent).map (· ++ [side]) else none
termination_by n

/-- The key stored under a number. -/
def key? (x : StateIndex) (id : Nat) : Option Key := do
  let e ← x.entries[id]?
  let above ← x.bitsTo? e.node
  let bits ← x.remainders.get? e.remainder
  Key.unframe? (above ++ e.side :: bits.drop e.skip)

end StateIndex

end PetriCheck
