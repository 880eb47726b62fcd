import PetriCheck.IdMap
import PetriCheck.Search.Task

/-!
# Accepting cycles in one pass

A depth-first search that closes strongly connected components. The stack `component` holds the states whose component
is not closed yet, each with its low link, the lowest position of the stack that it is known to reach; `path` is the
depth-first path, deepest state first, and `accepting` the positions of the accepting states on it, highest first.

An edge back to position `to` of the stack, whose low link is not above that of the edge's source, closes a cycle; the
cycle is accepting if some accepting state of the path lies at `to` or above.
-/

namespace PetriCheck

/-- A state whose component is open: its number and its low link. -/
structure OpenState where
  id : Nat
  low : Nat
deriving Inhabited

/-- A state of the path: its position on the stack, and the successors that were not looked at. -/
structure PathState (S : Type) where
  position : Nat
  state : S
  pending : List S

/-- What is known of a state number. -/
inductive Mark where
  | unseen
  | onStack (position : Nat)
  | closed
deriving DecidableEq, Inhabited

structure Tarjan (S : Type) where
  roots : List (Nat × S) := []
  component : Array OpenState := #[]
  path : List (PathState S) := []
  accepting : List Nat := []
  marks : IdMap Mark := .empty

namespace Tarjan

variable {S μ β : Type}

def new : Tarjan S := {}

def waiting (x : Tarjan S) : Nat := x.path.length

/-- Registers the initial states. -/
def start [DecidableEq S] (task : Task S μ β) (x : Tarjan S) (mem : Memory μ β) :
    Except (Interrupt S) Unit × Tarjan S × Memory μ β :=
  match mem.discoverAll task task.system.initial with
  | (.error i, mem) => (.error i, x, mem)
  | (.ok fresh, mem) => (.ok (), { x with roots := fresh }, mem.mapStats (·.observeWaiting fresh.length))

/-- Enters a state: it is put onto the stack and, once its successors are known, onto the path. -/
def push (task : Task S μ β) (x : Tarjan S) (mem : Memory μ β) (id : Nat) (s : S) :
    Except (Interrupt S) (Progress S) × Tarjan S × Memory μ β :=
  let position := x.component.size
  let x := { x with
    component := x.component.push ⟨id, position⟩
    marks := x.marks.set id (.onStack position)
    accepting := if task.system.isAccepting s then position :: x.accepting else x.accepting }
  match task.system.successors s with
  | .error e => (.error (.fault (.net e)), x, mem)
  | .ok pending =>
    let x := { x with path := ⟨position, s, pending⟩ :: x.path }
    (.ok .going, x, mem.mapStats (·.observeWaiting x.path.length))

/-- Lowers the link of position `source` along an edge to position `target`; tells whether this closes an accepting
cycle. -/
def update (x : Tarjan S) (source target : Nat) : Except (Interrupt S) Bool × Tarjan S :=
  match x.component[target]?, x.component[source]? with
  | some reached, some own =>
    if reached.low ≤ own.low then
      let x := { x with component := x.component.setIfInBounds source { own with low := reached.low } }
      (.ok (x.accepting.head?.any (target ≤ ·)), x)
    else (.ok false, x)
  | none, _ => (.error (.fault (.stack target)), x)
  | some _, none => (.error (.fault (.stack source)), x)

/-- Closes the component whose states lie at `position` and above. -/
def close (x : Tarjan S) (position : Nat) : Tarjan S where
  roots := x.roots
  component := x.component.take position
  path := x.path
  accepting := x.accepting
  marks := (x.component.toList.drop position).foldl (fun marks s => marks.set s.id .closed) x.marks

/-- Leaves the deepest state of the path, where `rest` is the path above it. -/
def pop (x : Tarjan S) (mem : Memory μ β) (top : PathState S) (rest : List (PathState S)) :
    Except (Interrupt S) (Progress S) × Tarjan S × Memory μ β :=
  let mem := mem.mapStats fun stats => stats.recordExplored.refreshWaiting rest.length
  let x := { x with path := rest }
  let left (x : Tarjan S) : Tarjan S :=
    { x with accepting := if x.accepting.head? = some top.position then x.accepting.tail else x.accepting }
  match x.component[top.position]? with
  | none => (.error (.fault (.stack top.position)), x, mem)
  | some this =>
    if this.low = top.position then (.ok .going, left (x.close top.position), mem)
    else
      match rest with
      | [] => (.ok .going, left x, mem)
      | parent :: _ =>
        match (left x).update parent.position top.position with
        | (.error i, x) => (.error i, x, mem)
        | (.ok true, x) => (.ok (.accepting top.state), x, mem)
        | (.ok false, x) => (.ok .going, x, mem)

/-- Looks at an edge from the deepest state of the path, at position `source`, to a state. -/
def follow [DecidableEq S] (task : Task S μ β) (x : Tarjan S) (mem : Memory μ β) (source : Nat) (s : S) :
    Except (Interrupt S) (Progress S) × Tarjan S × Memory μ β :=
  match mem.discover task s with
  | (.error i, mem) => (.error i, x, mem)
  | (.ok none, mem) => (.ok .going, x, mem)
  | (.ok (some found), mem) =>
    match x.marks.get found.id with
    | .unseen => x.push task mem found.id s
    | .closed => (.ok .going, x, mem)
    | .onStack target =>
      match x.update source target with
      | (.error i, x) => (.error i, x, mem)
      | (.ok true, x) => (.ok (.accepting s), x, mem)
      | (.ok false, x) => (.ok .going, x, mem)

/-- Starts from the next initial state that was not seen; the ones before it are done with. -/
def nextRoot (task : Task S μ β) (x : Tarjan S) (mem : Memory μ β) :
    Except (Interrupt S) (Progress S) × Tarjan S × Memory μ β :=
  match x.roots.dropWhile fun (id, _) => x.marks.get id != .unseen with
  | [] => (.ok .exhausted, { x with roots := [] }, mem)
  | (id, s) :: roots =>
    let x := { x with roots }
    match mem.askBudget task with
    | (some reason, mem) => (.error (.limit reason), x, mem)
    | (none, mem) => x.push task mem id s

/-- One step: a new root, the next edge of the deepest state of the path, or the end of that state. -/
def step [DecidableEq S] (task : Task S μ β) (x : Tarjan S) (mem : Memory μ β) :
    Except (Interrupt S) (Progress S) × Tarjan S × Memory μ β :=
  match x.path with
  | [] => x.nextRoot task mem
  | top :: rest =>
    match mem.askBudget task with
    | (some reason, mem) => (.error (.limit reason), x, mem)
    | (none, mem) =>
      match top.pending with
      | [] => x.pop mem top rest
      | s :: pending => follow task { x with path := { top with pending } :: rest } mem top.position s

end Tarjan

end PetriCheck
