import PetriCheck.StateIndex.Basic

/-!
# Walking over the state index

A visitor decides how a walk over the trie goes on. The walk is depth first, the low side of a node before its high
side. On each side that is not empty it comes back to the side's bit position, may be told to leave the side out, and
else announces the bit; in a bucket it hands over every member's remaining bits. A visitor that cannot take a bit or a
remainder ends the walk.

Two visitors: `KeyCollector` lists all keys, and `KeyMatcher` looks for one key, leaving out what cannot lead to it.
-/

namespace PetriCheck

/-- What a bucket member has left below its bucket. -/
structure Remainder where
  id : Nat
  bits : Bits

/-- A visitor with memory `σ`. Positions are bit positions of framed keys. -/
structure Visitor (σ : Type) where
  /-- Back at a position: false leaves the side out. -/
  back : Nat → σ → Bool × σ
  /-- A bit at a position: false ends the walk. -/
  set : Nat → Bool → σ → Bool × σ
  /-- A member whose remaining bits start at a position: false ends the walk. -/
  remainder : Nat → Remainder → σ → Bool × σ

namespace StateIndex

variable {σ : Type}

/-- The complaint that a visitor cannot take more. -/
def refusal : IndexError := .allocation "visitor"

/-- Hands over the members of a bucket. -/
def visitMembers (x : StateIndex) (v : Visitor σ) (position : Nat) :
    List Nat → σ → Except IndexError Unit × σ
  | [], s => (.ok (), s)
  | id :: ids, s =>
    match x.suffix id with
    | .error e => (.error e, s)
    | .ok bits =>
      match v.remainder position ⟨id, bits⟩ s with
      | (true, s) => x.visitMembers v position ids s
      | (false, s) => (.error refusal, s)

/-- Opens a side that is not empty: whether the walk goes on into it. -/
def enter (v : Visitor σ) (depth : Nat) (b : Bool) (s : σ) : Except IndexError Bool × σ :=
  match v.back depth s with
  | (false, s) => (.ok false, s)
  | (true, s) =>
    match v.set depth b s with
    | (true, s) => (.ok true, s)
    | (false, s) => (.error refusal, s)

/-- Walks over one side of node `n`, where `visit` walks over nodes allocated after `n`. -/
def visitSide (x : StateIndex) (v : Visitor σ) (n : Nat) (node : Node) (b : Bool)
    (visit : (m : Nat) → n < m → m < x.nodes.size → σ → Except IndexError Unit × σ) (s : σ) :
    Except IndexError Unit × σ :=
  match node.side b with
  | .empty => (.ok (), s)
  | .branch child =>
    match enter v node.depth b s with
    | (.error e, s) => (.error e, s)
    | (.ok false, s) => (.ok (), s)
    | (.ok true, s) =>
      if h : n < child ∧ child < x.nodes.size then visit child h.1 h.2 s
      else (.error (.outOfRange "node" child), s)
  | .bucket members =>
    match enter v node.depth b s with
    | (.error e, s) => (.error e, s)
    | (.ok false, s) => (.ok (), s)
    | (.ok true, s) => x.visitMembers v (node.depth + 1) members s

/-- Walks over node `n` and all below it; children were allocated after their parent. -/
def visitNode (x : StateIndex) (v : Visitor σ) (n : Nat) (s : σ) : Except IndexError Unit × σ :=
  match x.nodes[n]? with
  | none => (.error (.outOfRange "node" n), s)
  | some node =>
    match x.visitSide v n node false (fun m _ _ s => x.visitNode v m s) s with
    | (.error e, s) => (.error e, s)
    | (.ok (), s) => x.visitSide v n node true (fun m _ _ s => x.visitNode v m s) s
termination_by x.nodes.size - n
decreasing_by all_goals omega

/-- Walks over the whole index. -/
def traverse (x : StateIndex) (v : Visitor σ) (s : σ) : Except IndexError Unit × σ := x.visitNode v root s

end StateIndex

/-! ## Collecting all keys -/

/-- What a collection has so far: the bits down to the current position, and the keys, last one first. -/
structure KeyCollector where
  limit : Option Nat := none
  above : Array Bool := #[]
  collected : List (Nat × Key) := []

namespace KeyCollector

/-- The keys in the order in which they were met. -/
def keys (c : KeyCollector) : List (Nat × Key) := c.collected.reverse

def isFull (c : KeyCollector) : Bool :=
  match c.limit with
  | some limit => decide (limit ≤ c.collected.length)
  | none => false

def addRemainder (position : Nat) (r : Remainder) (c : KeyCollector) : Bool × KeyCollector :=
  if c.above.size ≠ position ∨ c.isFull then (false, c)
  else
    match Key.unframe? (c.above.toList ++ r.bits) with
    | some k => (true, { c with collected := (r.id, k) :: c.collected })
    | none => (false, c)

/-- Collects the keys in bit order, up to the limit. -/
def visitor : Visitor KeyCollector where
  back position c := (true, { c with above := c.above.take position })
  set position b c := if c.above.size = position then (true, { c with above := c.above.push b }) else (false, c)
  remainder := addRemainder

end KeyCollector

/-! ## Looking for one key -/

/-- The search for one key: the framed bits looked for, the position of a mismatch above, and how many bits were seen.
-/
structure KeyMatcher where
  target : Bits
  mismatch : Option Nat := none
  found : Option Nat := none
  visited : Nat := 0

namespace KeyMatcher

def new (k : Key) : Except IndexError KeyMatcher := do
  .ok { target := ← StateIndex.framed k }

def onBack (position : Nat) (m : KeyMatcher) : Bool × KeyMatcher :=
  if m.found.isSome then (false, m)
  else
    match m.mismatch with
    | some depth => if depth < position then (false, m) else (true, { m with mismatch := none })
    | none => (true, m)

def onSet (position : Nat) (b : Bool) (m : KeyMatcher) : Bool × KeyMatcher :=
  let m := { m with visited := m.visited + 1 }
  (true, if m.target[position]? = some b then m else { m with mismatch := some position })

def onRemainder (position : Nat) (r : Remainder) (m : KeyMatcher) : Bool × KeyMatcher :=
  (true, if m.mismatch.isNone ∧ m.found.isNone ∧ position ≤ m.target.length ∧ m.target.drop position = r.bits then
    { m with found := some r.id } else m)

/-- Goes only where the bits agree with the target; a mismatch prunes what lies below it. -/
def visitor : Visitor KeyMatcher where
  back := onBack
  set := onSet
  remainder := onRemainder

end KeyMatcher

end PetriCheck
