import PetriCheck.Condition.Formula

/-!
# The written form of guards

Guards are written with names, `true`, `false`, `!`, `&`, `|` and brackets; `&` binds tighter than `|`, and `!` tighter
than both. Blanks may stand around every token. A text is first cut into tokens (`Lexeme.scan`), names as long as
possible; then the longest formula at its start is read (`Lexeme.disjunction`). Where a sign `&` or `|` is not followed
by a term, the formula ends in front of the sign.
-/

namespace PetriCheck

/-- Why a text is no guard. -/
inductive GuardError where
  | noTerm
  /-- A guard ends before the text does. -/
  | trailing (rest : String)
  | unknownProposition (name : String)
deriving DecidableEq

namespace GuardError

def message : GuardError → String
  | noTerm => "guard syntax error: expected a term"
  | trailing rest => s!"unexpected trailing input `{rest}`"
  | unknownProposition name => s!"unknown proposition `{name}`"

end GuardError

/-! ## Tokens -/

inductive Token where
  | bang
  | amp
  | bar
  | opening
  | closing
  | name (text : List Char)
  | other (c : Char)
deriving DecidableEq

/-- A token, with the text that starts at it. -/
structure Lexeme where
  token : Token
  rest : List Char

namespace Lexeme

/-- Blanks: space, tabulator, and the two line end characters. -/
def isBlank (c : Char) : Bool := c = ' ' || c = '\t' || c = '\r' || c = '\n'

def isNameStart (c : Char) : Bool := c.isAlpha || c = '_'

def isNamePart (c : Char) : Bool := c.isAlphanum || c = '_' || c = '.' || c = '>' || c = '=' || c = '<'

/-- The token at a character that is neither blank nor the start of a name. -/
def sign (c : Char) : Token :=
  if c = '!' then .bang
  else if c = '&' then .amp
  else if c = '|' then .bar
  else if c = '(' then .opening
  else if c = ')' then .closing
  else .other c

/-- Cuts a text into tokens. -/
def scan : List Char → List Lexeme
  | [] => []
  | c :: cs =>
    if isBlank c then scan cs
    else if isNameStart c then ⟨.name (c :: cs.takeWhile isNamePart), c :: cs⟩ :: scan (cs.dropWhile isNamePart)
    else ⟨sign c, c :: cs⟩ :: scan cs
termination_by cs => cs.length
decreasing_by
  · simp
  · have := (List.dropWhile_suffix isNamePart (l := cs)).length_le
    simp only [List.length_cons]
    omega
  · simp

/-! ## Formulas -/

/-- The formula of a name: a constant or an atom. -/
def ofName (text : List Char) : Formula String :=
  let text := String.ofList text
  if text = "true" then .top else if text = "false" then .bot else .atom text

/-- A list of terms as one formula; a single term stands for itself. -/
def collapse (join : List (Formula String) → Formula String) (f : Formula String) :
    List (Formula String) → Formula String
  | [] => f
  | fs => join (f :: fs)

mutual

/-- Reads a negation, a name, or a formula in brackets. The number bounds the depth of the reading. -/
def term : Nat → List Lexeme → Option (Formula String × List Lexeme)
  | 0, _ => none
  | _ + 1, [] => none
  | n + 1, l :: ls =>
    match l.token with
    | .bang =>
      match term n ls with
      | some (f, ls) => some (.not f, ls)
      | none => none
    | .name text => some (ofName text, ls)
    | .opening =>
      match disjunction n ls with
      | some (f, ⟨.closing, _⟩ :: ls) => some (f, ls)
      | _ => none
    | _ => none

/-- Reads further terms behind `&`. -/
def moreTerms : Nat → List Lexeme → List (Formula String) × List Lexeme
  | 0, ls => ([], ls)
  | _ + 1, [] => ([], [])
  | n + 1, l :: ls =>
    if l.token = .amp then
      match term n ls with
      | some (f, rest) =>
        let (fs, rest) := moreTerms n rest
        (f :: fs, rest)
      | none => ([], l :: ls)
    else ([], l :: ls)

/-- Reads terms joined by `&`. -/
def conjunction : Nat → List Lexeme → Option (Formula String × List Lexeme)
  | 0, _ => none
  | n + 1, ls =>
    match term n ls with
    | some (f, ls) =>
      let (fs, ls) := moreTerms n ls
      some (collapse .and f fs, ls)
    | none => none

/-- Reads further conjunctions behind `|`. -/
def moreConjunctions : Nat → List Lexeme → List (Formula String) × List Lexeme
  | 0, ls => ([], ls)
  | _ + 1, [] => ([], [])
  | n + 1, l :: ls =>
    if l.token = .bar then
      match conjunction n ls with
      | some (f, rest) =>
        let (fs, rest) := moreConjunctions n rest
        (f :: fs, rest)
      | none => ([], l :: ls)
    else ([], l :: ls)

/-- Reads conjunctions joined by `|`. -/
def disjunction : Nat → List Lexeme → Option (Formula String × List Lexeme)
  | 0, _ => none
  | n + 1, ls =>
    match conjunction n ls with
    | some (f, ls) =>
      let (fs, ls) := moreConjunctions n ls
      some (collapse .or f fs, ls)
    | none => none

end

/-- A depth that is enough for any reading of these tokens. -/
def depthFor (ls : List Lexeme) : Nat := 3 * ls.length + 3

end Lexeme

/-- Reads a whole text as a formula over names. -/
def Formula.parse (text : String) : Except GuardError (Formula String) :=
  let ls := Lexeme.scan text.toList
  match Lexeme.disjunction (Lexeme.depthFor ls) ls with
  | none => .error .noTerm
  | some (f, []) => .ok f
  | some (_, l :: _) => .error (.trailing (String.ofList l.rest))

end PetriCheck
