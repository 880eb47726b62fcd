import PetriCheck.Condition.Grammar
import PetriCheck.Net.Firing

/-!
# Propositions on markings

An atomic proposition compares the tokens of a place, or of several places together, with a number, or asks whether a
transition can fire, or whether none can. A table names propositions; the propositions that hold at a marking are its
label (`PropositionTable.label`). Guards are read against a table, by the names in it (`Guard.parse`).
-/

namespace PetriCheck

inductive Comparison where
  | lt
  | le
  | eq
  | ne
  | ge
  | gt
deriving DecidableEq, Inhabited

namespace Comparison

def all : List Comparison := [lt, le, eq, ne, ge, gt]

def holds : Comparison → UInt64 → UInt64 → Bool
  | lt, a, b => a < b
  | le, a, b => a ≤ b
  | eq, a, b => a = b
  | ne, a, b => a ≠ b
  | ge, a, b => b ≤ a
  | gt, a, b => b < a

def symbol : Comparison → String
  | lt => "<"
  | le => "≤"
  | eq => "="
  | ne => "≠"
  | ge => "≥"
  | gt => ">"

end Comparison

/-- A statement about a marking. -/
inductive Proposition where
  | tokens (place : Nat) (cmp : Comparison) (value : UInt64)
  | tokenSum (places : List Nat) (cmp : Comparison) (value : UInt64)
  | fireable (transition : Nat)
  | deadlock
deriving DecidableEq, Inhabited

/-- Adds two token counts; a sum that does not fit stays at the largest count. -/
def saturatingAdd (a b : UInt64) : UInt64 :=
  if a.toNat + b.toNat < UInt64.size then a + b else 0xFFFFFFFFFFFFFFFF

namespace Proposition

/-- Whether the truth of a proposition depends on the enabled transitions. -/
def needsEnabled : Proposition → Bool
  | fireable _ => true
  | deadlock => true
  | _ => false

/-- The truth of a proposition, given the enabled transitions. -/
def holds (m : Marking) (enabled : List Nat) : Proposition → Bool
  | tokens p cmp value => cmp.holds (m.count p) value
  | tokenSum ps cmp value => cmp.holds (ps.foldl (fun sum p => saturatingAdd sum (m.count p)) 0) value
  | fireable t => enabled.contains t
  | deadlock => enabled.isEmpty

/-- Whether all places and transitions that a proposition speaks of are in the net. -/
def inNet (net : Net) : Proposition → Bool
  | tokens p .. => p < net.places.size
  | tokenSum ps .. => ps.all (· < net.places.size)
  | fireable t => t < net.transitions.size
  | deadlock => true

def render : Proposition → String
  | tokens p cmp value => s!"p{p} {cmp.symbol} {value}"
  | tokenSum ps cmp value => "(" ++ " + ".intercalate (ps.map fun p => s!"p{p}") ++ s!") {cmp.symbol} {value}"
  | fireable t => s!"fireable(t{t})"
  | deadlock => "deadlock"

end Proposition

structure NamedProposition where
  name : String
  prop : Proposition
deriving DecidableEq, Inhabited

/-- Named propositions, numbered from 0. -/
structure PropositionTable where
  props : Array NamedProposition := #[]
deriving DecidableEq, Inhabited

namespace PropositionTable

def size (table : PropositionTable) : Nat := table.props.size

def isEmpty (table : PropositionTable) : Bool := table.props.isEmpty

/-- The number of the first proposition of a name. -/
def byName? (table : PropositionTable) (name : String) : Option Nat := table.props.toList.findIdx? (·.name = name)

/-- The first proposition that speaks of something outside the net. -/
def stray? (table : PropositionTable) (net : Net) : Option (Nat × NamedProposition) :=
  (table.props.toList.zipIdx.find? fun (named, _) => !named.prop.inNet net).map fun (named, i) => (i, named)

/-- The enabled transitions, which are only looked for if some proposition depends on them. -/
def enabledFor (table : PropositionTable) (net : Net) (m : Marking) : List Nat :=
  if table.props.any (·.prop.needsEnabled) then net.enabled m else []

/-- The propositions that hold at a marking. -/
def label (table : PropositionTable) (net : Net) (m : Marking) : PropSet :=
  let enabled := table.enabledFor net m
  .ofList ((table.props.toList.zipIdx.filter fun (named, _) => named.prop.holds m enabled).map (·.2))

end PropositionTable

/-- Reads a guard; names stand for the first proposition of that name. -/
def Guard.parse (text : String) (table : PropositionTable) : Except GuardError Guard := do
  let f ← Formula.parse text
  f.resolve fun name =>
    match table.byName? name with
    | some p => .ok p
    | none => .error (.unknownProposition name)

end PetriCheck
