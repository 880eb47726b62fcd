import PetriCheck.Data.Shape
import PetriCheck.Text.Quoted

/-!
# Writing JSON

One item or field per line, indented by two blanks for each bracket around it. A variant without payload is a string,
and one with a payload an object with its name as the only key; an optional value that is not there is `null`.
-/

namespace PetriCheck

namespace Json

def indent (depth : Nat) : String := String.ofList (List.replicate (2 * depth) ' ')

/-- A control character by its number, in four digits. -/
def escapeControl (c : Char) : List Char :=
  let digits := Text.hexDigits c.toNat
  '\\' :: 'u' :: List.replicate (4 - digits.length) '0' ++ digits

def escapeChar (c : Char) : List Char :=
  if c = '"' then ['\\', '"']
  else if c = '\\' then ['\\', '\\']
  else if c = '\x08' then ['\\', 'b']
  else if c = '\x0c' then ['\\', 'f']
  else if c = '\n' then ['\\', 'n']
  else if c = '\r' then ['\\', 'r']
  else if c = '\t' then ['\\', 't']
  else if c < ' ' then escapeControl c
  else [c]

def quote (s : String) : String := String.ofList ('"' :: s.toList.flatMap escapeChar ++ ['"'])

/-- Entries on lines of their own between brackets. -/
def block (opening closing : String) (depth : Nat) (entries : List String) : String :=
  if entries.isEmpty then opening ++ closing
  else
    opening ++ "\n" ++ ",\n".intercalate (entries.map (indent (depth + 1) ++ ·)) ++ "\n" ++ indent depth ++ closing

/-- An entry of an object. -/
def entry (name value : String) : String := quote name ++ ": " ++ value

mutual

/-- A datum of a shape, where `self` is the choice that `again` stands for. -/
def write (depth : Nat) (self shape : Shape) : Datum → String
  | .number n => toString n
  | .flag b => if b then "true" else "false"
  | .text s => quote s
  | .absent => "null"
  | .present d =>
    match self.resolve shape with
    | .option item => write depth self item d
    | _ => "null"
  | .wrapped d =>
    match self.resolve shape with
    | .wrapper _ item => write depth self item d
    | _ => "null"
  | .list items =>
    match self.resolve shape with
    | .list item => block "[" "]" depth (writeItems (depth + 1) self item items)
    | _ => "null"
  | .record ds =>
    match self.resolve shape with
    | .record _ fields => block "\x7b" "\x7d" depth (writeFields (depth + 1) self fields ds)
    | _ => "null"
  | .variant position payload =>
    match self.resolve shape with
    | .choice name variants =>
      match variants[position]? with
      | some (.unit name) => quote name
      | some (.value label item) =>
        block "\x7b" "\x7d" depth (writeFields (depth + 1) (.choice name variants) [.required label item] payload)
      | some (.fields label fields) =>
        let inner := block "\x7b" "\x7d" (depth + 1) (writeFields (depth + 2) (.choice name variants) fields payload)
        block "\x7b" "\x7d" depth [entry label inner]
      | none => "null"
    | _ => "null"

def writeItems (depth : Nat) (self item : Shape) : List Datum → List String
  | [] => []
  | d :: ds => write depth self item d :: writeItems depth self item ds

def writeFields (depth : Nat) (self : Shape) (fields : List Field) : List Datum → List String
  | [] => []
  | d :: ds =>
    match fields with
    | [] => []
    | f :: fs => entry f.name (write depth self f.shape d) :: writeFields depth self fs ds

end

/-- The text of a datum. -/
def render (shape : Shape) (d : Datum) : String := write 0 shape shape d

end Json

end PetriCheck
