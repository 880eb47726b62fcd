import PetriCheck.Condition.Automaton
import PetriCheck.Data.Shape

/-!
# Propositions and automata in files
-/

namespace PetriCheck

namespace Comparison

def shape : Shape := .names "Comparison" ["Lt", "Le", "Eq", "Ne", "Ge", "Gt"]

def position : Comparison → Nat
  | lt => 0
  | le => 1
  | eq => 2
  | ne => 3
  | ge => 4
  | gt => 5

def toDatum (c : Comparison) : Datum := .variant c.position []

def ofDatum? (d : Datum) : Option Comparison := d.toName? all

end Comparison

namespace Proposition

def shape : Shape :=
  .choice "AtomicProposition" [
    .fields "Tokens" [.required "place" (.ident "PlaceId"), .required "cmp" Comparison.shape, .required "value" .word],
    .fields "TokenSum"
      [.required "places" (.list (.ident "PlaceId")), .required "cmp" Comparison.shape, .required "value" .word],
    .value "Fireable" (.ident "TransitionId"),
    .unit "Deadlock"]

def toDatum : Proposition → Datum
  | tokens p cmp value => .variant 0 [.ofIdent p, cmp.toDatum, .ofWord value]
  | tokenSum ps cmp value => .variant 1 [.ofList .ofIdent ps, cmp.toDatum, .ofWord value]
  | fireable t => .variant 2 [.ofIdent t]
  | deadlock => .variant 3 []

def ofDatum? : Datum → Option Proposition
  | .variant 0 [p, cmp, value] => do some (tokens (← p.toIdent?) (← Comparison.ofDatum? cmp) (← value.toWord?))
  | .variant 1 [ps, cmp, value] => do
    some (tokenSum (← ps.toList? Datum.toIdent?) (← Comparison.ofDatum? cmp) (← value.toWord?))
  | .variant 2 [t] => t.toIdent?.map fireable
  | .variant 3 [] => some deadlock
  | _ => none

end Proposition

namespace PropositionTable

def itemShape : Shape := .record "NamedProposition" [.required "name" .text, .required "prop" Proposition.shape]

def shape : Shape := .list itemShape

def toDatum (table : PropositionTable) : Datum :=
  .ofList (fun p => .record [.text p.name, p.prop.toDatum]) table.props.toList

def itemOfDatum? : Datum → Option NamedProposition
  | .record [name, prop] => do some ⟨← name.toText?, ← Proposition.ofDatum? prop⟩
  | _ => none

def ofDatum? (d : Datum) : Option PropositionTable := (d.toList? itemOfDatum?).map fun ps => ⟨ps.toArray⟩

instance : Stored PropositionTable := ⟨shape, toDatum, ofDatum?⟩

end PropositionTable

namespace Guard

def shape : Shape :=
  .choice "Guard" [.unit "True", .unit "False", .value "Prop" (.ident "PropId"), .value "Not" .again,
    .value "And" (.list .again), .value "Or" (.list .again)]

mutual

def toDatum : Formula Nat → Datum
  | .top => .variant 0 []
  | .bot => .variant 1 []
  | .atom p => .variant 2 [.ofIdent p]
  | .not f => .variant 3 [toDatum f]
  | .and fs => .variant 4 [.list (toData fs)]
  | .or fs => .variant 5 [.list (toData fs)]

def toData : List (Formula Nat) → List Datum
  | [] => []
  | f :: fs => toDatum f :: toData fs

end

mutual

def ofDatum? : Datum → Option Guard
  | .variant 0 [] => some .top
  | .variant 1 [] => some .bot
  | .variant 2 [.wrapped (.number p)] => some (.atom p)
  | .variant 3 [d] => (ofDatum? d).map .not
  | .variant 4 [.list ds] => (ofData? ds).map .and
  | .variant 5 [.list ds] => (ofData? ds).map .or
  | _ => none

def ofData? : List Datum → Option (List Guard)
  | [] => some []
  | d :: ds => do some ((← ofDatum? d) :: (← ofData? ds))

end

instance : Stored Guard := ⟨shape, toDatum, ofDatum?⟩

end Guard

namespace Automaton

def edgeShape : Shape := .record "Edge" [.required "guard" Guard.shape, .required "to" (.ident "LocationId")]

def locationShape : Shape :=
  .record "Location" [.required "name" .text, .defaulted "accepting" .flag (.flag false),
    .defaulted "edges" (.list edgeShape) (.list [])]

def shape : Shape :=
  .record "BuchiAutomaton" [.required "locations" (.list locationShape), .required "initial" (.ident "LocationId")]

def edgeToDatum (e : Edge) : Datum := .record [Guard.toDatum e.guard, .ofIdent e.target.toNat]

def locationToDatum (l : Location) : Datum := .record [.text l.name, .flag l.accepting, .ofList edgeToDatum l.edges]

def toDatum (a : Automaton) : Datum :=
  .record [.ofList locationToDatum a.locations.toList, .ofIdent a.initial.toNat]

def edgeOfDatum? : Datum → Option Edge
  | .record [guard, target] => do some ⟨← Guard.ofDatum? guard, (← target.toIdent?).toUInt32⟩
  | _ => none

def locationOfDatum? : Datum → Option Location
  | .record [name, accepting, edges] => do
    some ⟨← name.toText?, ← accepting.toFlag?, ← edges.toList? edgeOfDatum?⟩
  | _ => none

def ofDatum? : Datum → Option Automaton
  | .record [locations, initial] => do
    some ⟨(← locations.toList? locationOfDatum?).toArray, (← initial.toIdent?).toUInt32⟩
  | _ => none

instance : Stored Automaton := ⟨shape, toDatum, ofDatum?⟩

end Automaton

end PetriCheck
