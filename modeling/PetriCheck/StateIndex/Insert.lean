import PetriCheck.StateIndex.Basic

/-!
# Insertion into the state index

`StateIndex.insert` gives a key its number. A new key is filed in the bucket at the end of its descent; a bucket that
has grown above the threshold sinks into a new child node, one bit deeper, until no bucket is too large
(`StateIndex.split`). Where nodes are limited the split may fail: the entry stays where it is, and the bucket stays
large.
-/

namespace PetriCheck

namespace StateIndex

/-- States are numbered by 32-bit words, the last of which is not given out. -/
def maxStates : Nat := UInt32.size - 1

/-- Replaces one side of a node. -/
def setSide (x : StateIndex) (n : Nat) (b : Bool) (s : Side) : StateIndex :=
  { x with nodes := x.nodes.modify n (·.setSide b s) }

/-- Whether no further node may be allocated. -/
def isFull (x : StateIndex) : Bool :=
  match x.nodeLimit with
  | some limit => decide (limit ≤ x.nodes.size)
  | none => false

/-- A bucket side of these members; no members make an empty side. -/
def bucketOf (members : List Nat) : Side := if members.isEmpty then .empty else .bucket members

/-- Moves entries one bit down to node `child`; gives the members of its low and its high side, in order. -/
def sink (x : StateIndex) (child : Nat) : List Nat → Except IndexError (StateIndex × List Nat × List Nat)
  | [] => .ok (x, [], [])
  | id :: ids => do
    let e ← x.entry id
    match ← x.suffixOf e with
    | [] => .error (.inconsistent s!"{describeState id} has no bit left to split on")
    | b :: _ =>
      let e : Entry := { e with node := child, side := b, skip := e.skip + 1 }
      let (x, low, high) ← sink { x with entries := x.entries.setIfInBounds id e } child ids
      .ok (x, if b then low else id :: low, if b then id :: high else high)

/-- A new node below side `b` of node `n`, with these members on its sides; `n` now leads to it. -/
def addChild (x : StateIndex) (n : Nat) (b : Bool) (depth : Nat) (low high : List Nat) : StateIndex :=
  let child : Node := ⟨some (n, b), depth + 1, bucketOf low, bucketOf high⟩
  let x := x.setSide n b (.branch x.nodes.size)
  { x with nodes := x.nodes.push child }

/-- Splits the bucket on side `b` of node `n` while buckets below it are too large, the high side of a new node first.
The number `bits` bounds how many bits the members have left. -/
def split : Nat → StateIndex → Nat → Bool → Except IndexError Unit × StateIndex
  | bits, x, n, b =>
    match x.node n with
    | .error e => (.error e, x)
    | .ok node =>
      match node.side b with
      | .empty => (.ok (), x)
      | .branch _ => (.ok (), x)
      | .bucket members =>
        if members.length ≤ x.threshold then (.ok (), x)
        else if x.isFull then (.error (.allocation "nodes"), x)
        else
          match bits with
          | 0 => (.error (.inconsistent s!"{describeNode n} has no bit left to split on"), x)
          | bits + 1 =>
            match x.sink x.nodes.size members with
            | .error e => (.error e, x)
            | .ok (y, low, high) =>
              let child := y.nodes.size
              let y := y.addChild n b node.depth low high
              match split bits y child true with
              | (.error e, y) => (.error e, y)
              | (.ok (), y) => split bits y child false

/-- Files a new entry at a position of the bucket on side `b` of node `n`, before any split. -/
def file (x : StateIndex) (n : Nat) (b : Bool) (suffix : Bits) (position : Nat) (members : List Nat) :
    StateIndex :=
  let id := x.entries.size
  let (remainder, pool) := x.remainders.intern suffix
  let x := { x with remainders := pool, entries := x.entries.push ⟨n, b, remainder, 0⟩ }
  x.setSide n b (.bucket (members.insertIdx position id))

/-- The number of a key: the one it has, or the next one. -/
def insert (x : StateIndex) (k : Key) : Except IndexError Lookup × StateIndex :=
  match x.locate k with
  | .error e => (.error e, x)
  | .ok (_, .found id) => (.ok ⟨true, id⟩, x)
  | .ok (spot, .vacant position) =>
    match x.node spot.node with
    | .error e => (.error e, x)
    | .ok node =>
      match node.side spot.side with
      | .branch _ => (.error (.inconsistent s!"descent stopped at branch {describeNode spot.node}"), x)
      | side =>
        if maxStates ≤ x.entries.size then (.error (.allocation "state ids"), x)
        else
          let id := x.entries.size
          let y := x.file spot.node spot.side spot.suffix position (membersOf side)
          match y.split spot.suffix.length spot.node spot.side with
          | (.error e, y) => (.error e, y)
          | (.ok (), y) => (.ok ⟨false, id⟩, y)

end StateIndex

end PetriCheck
