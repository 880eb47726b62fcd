import PetriCheck.Data.Shape
import PetriCheck.Text.Quoted

/-!
# Writing RON

One item or field per line with a comma behind it, indented by four blanks for each bracket around it. Records have no
name in front of their brackets, a wrapped value stands between brackets on the same line, and so does the value of a
variant.
-/

namespace PetriCheck

namespace Ron

def indent (depth : Nat) : String := String.ofList (List.replicate (4 * depth) ' ')

def quote (s : String) : String := Text.quoteWith ['"', '\''] s

/-- Entries on lines of their own between brackets. -/
def block (opening closing : String) (depth : Nat) (entries : List String) : String :=
  if entries.isEmpty then opening ++ closing
  else opening ++ "\n" ++ String.join (entries.map (indent (depth + 1) ++ · ++ ",\n")) ++ indent depth ++ closing

mutual

/-- A datum of a shape, where `self` is the choice that `again` stands for. -/
def write (depth : Nat) (self shape : Shape) : Datum → String
  | .number n => toString n
  | .flag b => if b then "true" else "false"
  | .text s => quote s
  | .absent => "None"
  | .present d =>
    match self.resolve shape with
    | .option item => "Some(" ++ write depth self item d ++ ")"
    | _ => "None"
  | .wrapped d =>
    match self.resolve shape with
    | .wrapper _ item => "(" ++ write depth self item d ++ ")"
    | _ => "()"
  | .list items =>
    match self.resolve shape with
    | .list item => block "[" "]" depth (writeItems (depth + 1) self item items)
    | _ => "[]"
  | .record ds =>
    match self.resolve shape with
    | .record _ fields => block "(" ")" depth (writeFields (depth + 1) self fields ds)
    | _ => "()"
  | .variant position payload =>
    match self.resolve shape with
    | .choice name variants =>
      match variants[position]? with
      | some (.unit label) => label
      | some (.value label item) =>
        label ++ "(" ++ String.join (writeItems depth (.choice name variants) item payload) ++ ")"
      | some (.fields label fields) =>
        label ++ block "(" ")" depth (writeFields (depth + 1) (.choice name variants) fields payload)
      | none => "()"
    | _ => "()"

def writeItems (depth : Nat) (self item : Shape) : List Datum → List String
  | [] => []
  | d :: ds => write depth self item d :: writeItems depth self item ds

def writeFields (depth : Nat) (self : Shape) (fields : List Field) : List Datum → List String
  | [] => []
  | d :: ds =>
    match fields with
    | [] => []
    | f :: fs => (f.name ++ ": " ++ write depth self f.shape d) :: writeFields depth self fs ds

end

/-- The text of a datum. -/
def render (shape : Shape) (d : Datum) : String := write 0 shape shape d

end Ron

end PetriCheck
