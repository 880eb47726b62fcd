import PetriCheck.Data.Shape
import PetriCheck.Net.Basic

/-!
# Nets in files

A net is kept as its places, its transitions, the two weight matrices by rows, and the matrices of inhibitor and reset
arcs, which may be left out.
-/

namespace PetriCheck

namespace Place

def shape : Shape :=
  .record "Place" [.required "name" .text, .required "tokens" .word, .defaulted "capacity" (.option .word) .absent]

def toDatum (p : Place) : Datum :=
  .record [.text p.name, .ofWord p.tokens, .ofOption .ofWord p.capacity]

def ofDatum? : Datum → Option Place
  | .record [name, tokens, capacity] => do
    some ⟨← name.toText?, ← tokens.toWord?, ← capacity.toOption? Datum.toWord?⟩
  | _ => none

end Place

namespace Transition

def shape : Shape := .record "Transition" [.required "name" .text]

def toDatum (t : Transition) : Datum := .record [.text t.name]

def ofDatum? : Datum → Option Transition
  | .record [name] => name.toText?.map Transition.mk
  | _ => none

end Transition

namespace Incidence

variable {α : Type}

/-- The shape of matrices with cells of one shape, under a name of their own. -/
def shape (name : String) (cell : Shape) : Shape :=
  .record name [.required "rows" (.list (.list cell)), .required "cols" .word]

def toDatum (write : α → Datum) (m : Incidence α) : Datum :=
  .record [.ofList (fun row => .ofList write row.toList) m.rows.toList, .number m.cols]

def ofDatum? (read : Datum → Option α) : Datum → Option (Incidence α)
  | .record [rows, cols] => do
    let rows ← rows.toList? fun row => (row.toList? read).map List.toArray
    some ⟨rows.toArray, ← cols.toNumber?⟩
  | _ => none

/-- Matrices of weights. -/
def weights : Shape := shape "Incidence" .word

/-- Matrices that mark arcs. -/
def arcs : Shape := shape "IncidenceBool" .flag

end Incidence

namespace Net

def shape : Shape :=
  .record "Net" [.required "places" (.list Place.shape), .required "transitions" (.list Transition.shape),
    .required "pre" Incidence.weights, .required "post" Incidence.weights,
    .defaulted "inhibitor" (.option Incidence.arcs) .absent, .defaulted "reset" (.option Incidence.arcs) .absent]

def toDatum (net : Net) : Datum :=
  .record [.ofList Place.toDatum net.places.toList, .ofList Transition.toDatum net.transitions.toList,
    net.pre.toDatum .ofWord, net.post.toDatum .ofWord, .ofOption (·.toDatum .flag) net.inhibitor,
    .ofOption (·.toDatum .flag) net.reset]

def ofDatum? : Datum → Option Net
  | .record [places, transitions, pre, post, inhibitor, reset] => do
    let arcs := Datum.toOption? (Incidence.ofDatum? Datum.toFlag?)
    some
      { places := (← places.toList? Place.ofDatum?).toArray
        transitions := (← transitions.toList? Transition.ofDatum?).toArray
        pre := ← Incidence.ofDatum? Datum.toWord? pre
        post := ← Incidence.ofDatum? Datum.toWord? post
        inhibitor := ← arcs inhibitor
        reset := ← arcs reset }
  | _ => none

instance : Stored Net := ⟨shape, toDatum, ofDatum?⟩

end Net

end PetriCheck
