import PetriCheck.StateIndex.Basic

/-!
# Auditing the state index

`StateIndex.audit` walks over all nodes and complains about the first thing that is out of order: a node and its parent
that do not point to each other, a depth that is not one more than the parent's, an empty bucket, a member filed under
another bucket or twice, a bucket that is not strictly sorted, and last an entry that is in no bucket.
-/

namespace PetriCheck

namespace StateIndex

private def fail {α : Type} (detail : String) : Except IndexError α := .error (.inconsistent detail)

/-- The upward link of node `n`. -/
def auditParent (x : StateIndex) (n : Nat) (node : Node) : Except IndexError Unit :=
  match node.parent with
  | none => if n = root then .ok () else fail s!"{describeNode n} has no parent"
  | some (parent, side) =>
    match x.nodes[parent]? with
    | none => fail s!"{describeNode n} has dangling parent {describeNode parent}"
    | some up =>
      if up.side side ≠ .branch n then fail s!"{describeNode parent} does not point back to {describeNode n}"
      else if up.depth + 1 ≠ node.depth then fail s!"{describeNode n} depth {node.depth} under {up.depth}"
      else .ok ()

/-- One member of the bucket on side `b` of node `n`; `before` is the member in front of it. Gives the states seen. -/
def auditMember (x : StateIndex) (n : Nat) (b : Bool) (before : Option Nat) (id : Nat) (seen : Array Bool) :
    Except IndexError (Array Bool) :=
  match x.entries[id]? with
  | none => fail s!"{describeNode n} references unknown {describeState id}"
  | some e =>
    if e.node ≠ n ∨ e.side ≠ b then fail s!"{describeState id} is filed under the wrong bucket"
    else if seen[id]?.getD false then fail s!"{describeState id} appears twice"
    else
      match before with
      | none => .ok (seen.setIfInBounds id true)
      | some previous => do
        let order := Bits.compare (← x.suffix previous) (← x.suffix id)
        if order = .lt then .ok (seen.setIfInBounds id true)
        else fail s!"bucket of {describeNode n} is not strictly ordered"

/-- The members of a bucket, in order. -/
def auditMembers (x : StateIndex) (n : Nat) (b : Bool) :
    Option Nat → List Nat → Array Bool → Except IndexError (Array Bool)
  | _, [], seen => .ok seen
  | before, id :: ids, seen => do
    let seen ← x.auditMember n b before id seen
    x.auditMembers n b (some id) ids seen

def auditSide (x : StateIndex) (n : Nat) (b : Bool) (side : Side) (seen : Array Bool) :
    Except IndexError (Array Bool) :=
  match side with
  | .bucket [] => fail s!"{describeNode n} holds an empty bucket"
  | .bucket members => x.auditMembers n b none members seen
  | _ => .ok seen

def auditNode (x : StateIndex) (n : Nat) (node : Node) (seen : Array Bool) : Except IndexError (Array Bool) := do
  x.auditParent n node
  let seen ← x.auditSide n false node.low seen
  x.auditSide n true node.high seen

/-- The nodes from `n` on, in order of allocation. -/
def auditNodes (x : StateIndex) : List Node → Nat → Array Bool → Except IndexError (Array Bool)
  | [], _, seen => .ok seen
  | node :: nodes, n, seen => do
    let seen ← x.auditNode n node seen
    x.auditNodes nodes (n + 1) seen

/-- Checks the whole index. -/
def audit (x : StateIndex) : Except IndexError Unit := do
  let seen ← x.auditNodes x.nodes.toList 0 (Array.replicate x.entries.size false)
  match seen.toList.idxOf? false with
  | some missing => fail s!"{describeState missing} is not reachable"
  | none => .ok ()

end StateIndex

end PetriCheck
