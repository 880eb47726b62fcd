/-!
# Tables of a TOML document

What a document says is a table of values. While it is read, tables are under construction: a table can be opened by a
header, by a longer header that passes through it, or by a dotted key, and each of these ways allows other things to be
added later. A key that is already taken, or a table that is opened twice, makes the document void.
-/

namespace PetriCheck

namespace Toml

inductive Value where
  | integer (n : Int)
  | float (x : Float)
  | flag (b : Bool)
  | text (s : String)
  /-- A date, a time, or both; nothing depends on which. -/
  | moment
  | array (items : List Value)
  | table (entries : List (String × Value))
deriving Inhabited

/-- A table under construction, or what is under a key of it. -/
inductive Node where
  | value (v : Value)
  /-- A table: `implied` unless a header opened it, and `dotted` if a dotted key did. -/
  | table (implied dotted : Bool) (entries : List (String × Node))
  /-- The tables of one repeated header, last one first. -/
  | tables (items : List (List (String × Node)))
deriving Inhabited

namespace Node

abbrev Entries := List (String × Node)

/-- Changes what is under a key, which is added if it is new; there may be no way to do so. -/
def update (key : String) (change : Option Node → Option Node) : Entries → Option Entries
  | [] => (change none).map fun n => [(key, n)]
  | (k, n) :: rest =>
    if k = key then (change (some n)).map fun n => (k, n) :: rest
    else (update key change rest).map ((k, n) :: ·)

/-- Adds a value under a new key. -/
def addValue (key : String) (v : Value) (entries : Entries) : Option Entries :=
  update key (fun found => if found.isSome then none else some (.value v)) entries

/-- Adds a value under a dotted key. Tables on the way are opened as needed; the last one has to be opened by dotted
keys alone, unless the key is not dotted. -/
def addDotted (v : Value) : List String → Bool → Entries → Option Entries
  | [], _, _ => none
  | [key], dotted, entries => if dotted then addValue key v entries else none
  | key :: path, _, entries =>
    update key (fun
      | none => (addDotted v path true []).map (.table true true)
      | some (.table true dotted inner) => (addDotted v path dotted inner).map (.table true dotted)
      | some (.tables (inner :: older)) => (addDotted v path false inner).map fun inner => .tables (inner :: older)
      | some _ => none) entries

/-- Adds a value under a key with the names of its path. -/
def add (v : Value) (path : List String) (entries : Entries) : Option Entries := addDotted v path true entries

/-- Changes the table behind a path of headers. -/
def within (change : Entries → Option Entries) : List String → Entries → Option Entries
  | [], entries => change entries
  | key :: path, entries =>
    update key (fun
      | none => (within change path []).map (.table true false)
      | some (.table implied dotted inner) => (within change path inner).map (.table implied dotted)
      | some (.tables (inner :: older)) => (within change path inner).map fun inner => .tables (inner :: older)
      | some _ => none) entries

/-- Opens the table of a header. -/
def openTable (path : List String) (entries : Entries) : Option Entries :=
  match path.reverse with
  | [] => none
  | key :: back =>
    within (update key fun
      | none => some (.table false false [])
      | some (.table true false inner) => some (.table false false inner)
      | some _ => none) back.reverse entries

/-- Opens one more table of a repeated header. -/
def openItem (path : List String) (entries : Entries) : Option Entries :=
  match path.reverse with
  | [] => none
  | key :: back =>
    within (update key fun
      | none => some (.tables [[]])
      | some (.tables items) => some (.tables ([] :: items))
      | some _ => none) back.reverse entries

mutual

/-- What a finished table says. -/
def toValue : Node → Value
  | .value v => v
  | .table _ _ entries => .table (entriesToValue entries)
  | .tables items => .array (itemsToValue items).reverse

def entriesToValue : List (String × Node) → List (String × Value)
  | [] => []
  | (key, n) :: rest => (key, n.toValue) :: entriesToValue rest

def itemsToValue : List (List (String × Node)) → List Value
  | [] => []
  | entries :: rest => .table (entriesToValue entries) :: itemsToValue rest

end

end Node

end Toml

end PetriCheck
