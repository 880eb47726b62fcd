import PetriCheck.Condition.Stored
import PetriCheck.Data.Format
import PetriCheck.Net.Stored
import PetriCheck.Search.Stored

/-!
# Models

A model is a net, a table of propositions about it, and the property to check. A property is a guard, given as text,
with what it is to do (hold somewhere, hold everywhere, hold again and again, hold from some point on), or an automaton
with the mode in which to read it. For the properties of infinite runs the automaton is that of their negation, so that
an accepting cycle is a violation.
-/

namespace PetriCheck

inductive Property where
  /-- Some reachable marking satisfies the goal. -/
  | reachable (goal : String)
  /-- Each reachable marking is good. -/
  | invariant (good : String)
  /-- The guard holds again and again on each run. -/
  | infinitelyOften (guard : String)
  /-- The guard holds from some point on on each run. -/
  | eventuallyAlways (guard : String)
  | automaton (automaton : Automaton) (mode : SearchMode)
deriving Inhabited

namespace Property

def name : Property → String
  | reachable _ => "reachable"
  | invariant _ => "invariant"
  | infinitelyOften _ => "infinitely_often"
  | eventuallyAlways _ => "eventually_always"
  | automaton .. => "automaton"

/-- The mode that the property asks for. -/
def defaultMode : Property → SearchMode
  | reachable _ => .reachability
  | invariant _ => .safety
  | infinitelyOften _ => .liveness
  | eventuallyAlways _ => .liveness
  | automaton _ mode => mode

/-- The mode of a search for the property. Only a property that is given as an automaton can be read in another mode
than its own. -/
def searchMode (property : Property) (requested : Option SearchMode) : Except ConditionError SearchMode :=
  match property, requested with
  | property, none => .ok property.defaultMode
  | automaton .., some mode => .ok mode
  | property, some mode =>
    if mode = property.defaultMode then .ok mode
    else .error (.modeMismatch property.name property.defaultMode mode)

/-- The guard of a text about the propositions of a table. -/
def readGuard (text : String) (table : PropositionTable) : Except ConditionError Guard :=
  (Guard.parse text table).mapError (.guard text)

/-- The automaton that a search for the property follows. -/
def toAutomaton (property : Property) (table : PropositionTable) : Except ConditionError Automaton :=
  match property with
  | reachable goal => (readGuard goal table).map Automaton.reachability
  | invariant good => (readGuard good table).map Automaton.invariant
  | infinitelyOften guard => (readGuard guard table).map fun g => Automaton.persistence g.negate
  | eventuallyAlways guard => (readGuard guard table).map fun g => Automaton.recurrence g.negate
  | automaton a _ => .ok a

/-! ## In files -/

def shape : Shape :=
  .choice "Property" [
    .fields "reachable" [.required "goal" .text],
    .fields "invariant" [.required "good" .text],
    .fields "infinitely_often" [.required "guard" .text],
    .fields "eventually_always" [.required "guard" .text],
    .fields "automaton" [.required "automaton" Automaton.shape, .required "mode" SearchMode.shape]]

def toDatum : Property → Datum
  | reachable goal => .variant 0 [.text goal]
  | invariant good => .variant 1 [.text good]
  | infinitelyOften guard => .variant 2 [.text guard]
  | eventuallyAlways guard => .variant 3 [.text guard]
  | automaton a mode => .variant 4 [a.toDatum, mode.toDatum]

def ofDatum? : Datum → Option Property
  | .variant 0 [goal] => goal.toText?.map reachable
  | .variant 1 [good] => good.toText?.map invariant
  | .variant 2 [guard] => guard.toText?.map infinitelyOften
  | .variant 3 [guard] => guard.toText?.map eventuallyAlways
  | .variant 4 [a, mode] => do some (automaton (← Automaton.ofDatum? a) (← mode.toName? SearchMode.all))
  | _ => none

instance : Stored Property := ⟨shape, toDatum, ofDatum?⟩

end Property

/-- A net with what to check about it. -/
structure Model where
  net : Net
  propositions : PropositionTable := {}
  property : Property
deriving Inhabited

namespace Model

def shape : Shape :=
  .record "ModelFile" [.required "net" Net.shape, .defaulted "propositions" PropositionTable.shape (.list []),
    .required "property" Property.shape]

def toDatum (m : Model) : Datum := .record [m.net.toDatum, m.propositions.toDatum, m.property.toDatum]

def ofDatum? : Datum → Option Model
  | .record [net, propositions, property] => do
    some ⟨← Net.ofDatum? net, ← PropositionTable.ofDatum? propositions, ← Property.ofDatum? property⟩
  | _ => none

instance : Stored Model := ⟨shape, toDatum, ofDatum?⟩

/-- Refuses a model whose net does not fit together. -/
def check (m : Model) : Except FileError Model := if m.net.wellFormed then .ok m else .error .malformed

def parse (format : Format) (text : String) : Except FileError Model := do check (← format.parse text)

def load (files : Files) (path : String) : Except FileError Model := do check (← files.load path)

def automaton (m : Model) : Except ConditionError Automaton := m.property.toAutomaton m.propositions

end Model

/-- Reads a net and refuses one that does not fit together. -/
def Net.load (files : Files) (path : String) : Except FileError Net := do
  let net : Net ← files.load path
  if net.wellFormed then return net else throw .malformed

end PetriCheck
