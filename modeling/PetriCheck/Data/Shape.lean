/-!
# Data and their shapes

Model files come in two text formats with one content. `Datum` is that content, and `Shape` says which data belong to a
type: the names of its fields and variants, the range of its numbers, and what stands for a field that is left out.
The readers and writers of the formats work from the shape alone, so a type that is stored in files gives its shape,
a datum for each value, and the value of a datum.
-/

namespace PetriCheck

/-- Content of a file. -/
inductive Datum where
  | number (n : Nat)
  | flag (b : Bool)
  | text (s : String)
  /-- An optional value that is not there. -/
  | absent
  /-- An optional value that is there. -/
  | present (d : Datum)
  | list (items : List Datum)
  /-- A value under a name of its own. -/
  | wrapped (d : Datum)
  /-- The fields of a record, in the order of its shape. -/
  | record (fields : List Datum)
  /-- The variant at a position of a choice, with what it carries. -/
  | variant (position : Nat) (payload : List Datum)
deriving Inhabited

mutual

/-- What data of a type look like. -/
inductive Shape where
  /-- Numbers below `limit`. -/
  | number (limit : Nat)
  | flag
  | text
  | option (item : Shape)
  | list (item : Shape)
  /-- A value under a name of its own, such as the id of a place. -/
  | wrapper (name : String) (item : Shape)
  | record (name : String) (fields : List Field)
  | choice (name : String) (variants : List Variant)
  /-- The innermost choice around this place. -/
  | again

/-- A field of a record; one with a default may be left out. -/
inductive Field where
  | mk (name : String) (shape : Shape) (default : Option Datum)

/-- One alternative of a choice. -/
inductive Variant where
  /-- A name alone. -/
  | unit (name : String)
  /-- A name with one value. -/
  | value (name : String) (shape : Shape)
  /-- A name with fields. -/
  | fields (name : String) (fields : List Field)

end

namespace Field

def name : Field → String
  | mk name _ _ => name

def shape : Field → Shape
  | mk _ shape _ => shape

def default : Field → Option Datum
  | mk _ _ default => default

/-- A field that has to be there. -/
def required (name : String) (shape : Shape) : Field := mk name shape none

/-- A field that may be left out. -/
def defaulted (name : String) (shape : Shape) (default : Datum) : Field := mk name shape (some default)

end Field

namespace Variant

def name : Variant → String
  | unit name => name
  | value name _ => name
  | fields name _ => name

end Variant

namespace Shape

instance : Inhabited Shape := ⟨again⟩

/-- Token counts, weights and matrix sizes. -/
def word : Shape := number UInt64.size

/-- An id under the name of its kind. -/
def ident (name : String) : Shape := wrapper name (number UInt32.size)

/-- The shape that `again` stands for inside `self`. -/
def resolve (self : Shape) : Shape → Shape
  | again => self
  | shape => shape

/-- A choice between names. -/
def names (name : String) (options : List String) : Shape := choice name (options.map .unit)

end Shape

namespace Datum

def ofOption {α : Type} (write : α → Datum) : Option α → Datum
  | some a => present (write a)
  | none => absent

def ofList {α : Type} (write : α → Datum) (items : List α) : Datum := list (items.map write)

def ofIdent (n : Nat) : Datum := wrapped (number n)

def toNumber? : Datum → Option Nat
  | number n => some n
  | _ => none

def toFlag? : Datum → Option Bool
  | flag b => some b
  | _ => none

def toText? : Datum → Option String
  | text s => some s
  | _ => none

def toOption? {α : Type} (read : Datum → Option α) : Datum → Option (Option α)
  | absent => some none
  | present d => (read d).map some
  | _ => none

def toList? {α : Type} (read : Datum → Option α) : Datum → Option (List α)
  | list items => items.mapM read
  | _ => none

/-- The option at the position of a variant without payload. -/
def toName? {α : Type} (options : List α) : Datum → Option α
  | variant position [] => options[position]?
  | _ => none

def toIdent? : Datum → Option Nat
  | wrapped (number n) => some n
  | _ => none

def ofWord (n : UInt64) : Datum := number n.toNat

def toWord? (d : Datum) : Option UInt64 := d.toNumber?.map (·.toUInt64)

end Datum

/-- Types whose values are kept in files. -/
class Stored (α : Type) where
  shape : Shape
  toDatum : α → Datum
  ofDatum? : Datum → Option α

/-- What fills the fields of a record, given what was read for each: a field that was not read takes its default, and
there is no record if it has none. -/
def fillFields : List Field → List (Option Datum) → Option (List Datum)
  | [], _ => some []
  | f :: fs, found =>
    match found.headD none <|> f.default with
    | some d => (fillFields fs found.tail).map (d :: ·)
    | none => none

end PetriCheck
