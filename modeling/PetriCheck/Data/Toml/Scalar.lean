import PetriCheck.Data.Scan
import PetriCheck.Data.Toml.Table
import PetriCheck.Decimal.Parse

/-!
# The simple values of TOML

Strings of four kinds, integers in four bases, decimal numbers, truth values, dates and times.
-/

namespace PetriCheck

namespace Toml

open Scan

/-! ## Characters -/

def isBlank (c : Char) : Bool := c == ' ' || c == '\t'

/-- Whether a comment or a string may hold a character on one line. -/
def isPrintable (c : Char) : Bool := c == '\t' || (' ' ≤ c && c != '\x7f')

def skipBlanks : Scan Unit := discard (takeRun isBlank)

/-- Takes the end of a line, if it is there. -/
def newline? : Scan Bool := do
  if ← take? "\n" then return true
  take? "\r\n"

/-! ## Strings -/

/-- The character with a number of a fixed count of hexadecimal digits. -/
def codePoint (count : Nat) : Scan Char := do
  let cs ← get
  let digits := cs.take count
  match digitsValue? 16 digits with
  | some n =>
    if digits.length = count ∧ n.isValidChar then
      set (cs.drop count)
      return Char.ofNat n
    else fail
  | none => fail

/-- The character of an escape sequence, behind the backslash. -/
def escape : Scan Char := do
  match ← next with
  | 'b' => return '\x08'
  | 't' => return '\t'
  | 'n' => return '\n'
  | 'f' => return '\x0c'
  | 'r' => return '\r'
  | 'e' => return '\x1b'
  | 'x' => codePoint 2
  | 'u' => codePoint 4
  | 'U' => codePoint 8
  | c => if c = '"' ∨ c = '\\' then return c else fail

/-- What a string may hold and how it ends. -/
structure Quoting where
  mark : Char
  /-- Three marks open and close it, and it may have several lines. -/
  long : Bool
  /-- Backslashes begin escape sequences. -/
  escapes : Bool

/-- Passes over white space and ends of lines. -/
def skipBlankLines : Nat → Scan Unit
  | 0 => pure ()
  | fuel + 1 => do
    skipBlanks
    if ← newline? then skipBlankLines fuel

/-- Passes over the rest of a line with nothing but white space, and over blank lines and white space after it. -/
def skipLineEnd : Scan Unit := do
  skipBlanks
  if ← newline? then skipBlankLines ((← get).length + 1) else fail

/-- The characters of a string up to its end, at most `fuel` of them. -/
def characters (q : Quoting) : Nat → List Char → Scan String
  | 0, _ => fail
  | fuel + 1, seen => do
    let close := String.ofList (List.replicate (if q.long then 3 else 1) q.mark)
    if q.long && (← newline?) then characters q fuel ('\n' :: seen)
    else if ← isAt close then
      if q.long then
        let marks ← takeRun (· == q.mark)
        if 5 < marks.length then fail else return String.ofList ((marks.drop 3) ++ seen).reverse
      else
        discard next
        return String.ofList seen.reverse
    else
      match ← next with
      | '\\' =>
        if !q.escapes then characters q fuel ('\\' :: seen)
        else if q.long && ((← get).dropWhile isBlank).head?.any (fun c => c == '\n' || c == '\r') then
          skipLineEnd
          characters q fuel seen
        else
          let c ← escape
          characters q fuel (c :: seen)
      | c => if isPrintable c then characters q fuel (c :: seen) else fail

/-- A string, from its opening mark on; only values may have several lines. -/
def string (longAllowed : Bool) : Scan String := do
  let cs ← get
  let mark := if cs.head? == some '\'' then '\'' else '"'
  let long := longAllowed && (← take? (String.ofList [mark, mark, mark]))
  if long then discard newline? else discard next
  characters ⟨mark, long, mark == '"'⟩ (cs.length + 1) []

/-! ## Numbers -/

/-- Digits of a base with single underscores between them. -/
def grouped? (base : Nat) (cs : List Char) : Option Nat :=
  let groups := (String.ofList cs).splitToList (· == '_')
  if groups.any String.isEmpty then none else digitsValue? base (groups.flatMap String.toList)

/-- A sign in front of a number, and what follows it. -/
def signed : List Char → Bool × List Char
  | '-' :: cs => (true, cs)
  | '+' :: cs => (false, cs)
  | cs => (false, cs)

/-- Whether digits begin with a zero that other digits follow. -/
def padded : List Char → Bool
  | '0' :: _ :: _ => true
  | _ => false

/-- An integer by its sign and its size, which 128 bits have to hold. -/
def bounded? (negative : Bool) (n : Nat) : Option Int :=
  if negative then if n ≤ 1 <<< 127 then some (-n) else none
  else if n < 1 <<< 128 then some n
  else none

/-- An integer. -/
def integer? (cs : List Char) : Option Int :=
  match cs with
  | '0' :: 'x' :: digits => (grouped? 16 digits).bind (bounded? false)
  | '0' :: 'o' :: digits => (grouped? 8 digits).bind (bounded? false)
  | '0' :: 'b' :: digits => (grouped? 2 digits).bind (bounded? false)
  | _ =>
    let (negative, digits) := signed cs
    if padded digits then none else (grouped? 10 digits).bind (bounded? negative)

/-- An exponent, with its mark in front; none at all is zero. -/
def exponent? : List Char → Option Int
  | [] => some 0
  | c :: cs =>
    if c == 'e' || c == 'E' then
      let (negative, digits) := signed cs
      (grouped? 10 digits).map fun n => if negative then -n else n
    else none

/-- A decimal number with a point or an exponent, infinity, or no number. -/
def float? (cs : List Char) : Option Float :=
  let (negative, cs) := signed cs
  let flip (x : Float) : Float := if negative then -x else x
  if cs == "inf".toList then some (flip (1.0 / 0.0))
  else if cs == "nan".toList then some (flip (0.0 / 0.0))
  else
    let inNumber (c : Char) : Bool := c.isDigit || c == '_'
    let whole := cs.takeWhile inNumber
    let rest := cs.dropWhile inNumber
    if padded whole || rest.isEmpty then none
    else
      let (part, tail) := match rest with
        | '.' :: rest => (some (rest.takeWhile inNumber), rest.dropWhile inNumber)
        | rest => (none, rest)
      do
        let n ← grouped? 10 whole
        let power ← exponent? tail
        match part with
        | none => Decimal.toFloat? negative n power
        | some part =>
          let fraction ← grouped? 10 part
          let places := (part.filter (· ≠ '_')).length
          Decimal.toFloat? negative (n * Nat.pow 10 places + fraction) (power - places)

/-! ## Dates and times -/

/-- A number of exactly so many digits within bounds. -/
def part? (cs : List Char) (count low high : Nat) : Option Nat :=
  if cs.length = count ∧ cs.all Char.isDigit then
    (digitsValue? 10 cs).bind fun n => if low ≤ n ∧ n ≤ high then some n else none
  else none

def daysIn (year month : Nat) : Nat :=
  if month = 2 then if year % 4 = 0 ∧ (year % 100 ≠ 0 ∨ year % 400 = 0) then 29 else 28
  else if month = 4 ∨ month = 6 ∨ month = 9 ∨ month = 11 then 30
  else 31

/-- Text of the form `YYYY-MM-DD`. -/
def isDate (cs : List Char) : Bool :=
  match (String.ofList cs).splitToList (· == '-') with
  | [y, m, d] =>
    match part? y.toList 4 0 9999, part? m.toList 2 1 12 with
    | some y, some m => (part? d.toList 2 1 (daysIn y m)).isSome
    | _, _ => false
  | _ => false

/-- Hours and minutes. -/
def isClock (h m : String) : Bool := (part? h.toList 2 0 23).isSome && (part? m.toList 2 0 59).isSome

/-- Seconds, perhaps with a fraction. -/
def isSeconds (s : String) : Bool :=
  (part? (s.toList.take 2) 2 0 60).isSome &&
    match s.toList.drop 2 with
    | [] => true
    | '.' :: ds => !ds.isEmpty && ds.all Char.isDigit
    | _ => false

/-- Text of the form `hh:mm` or `hh:mm:ss`, the latter perhaps with a fraction. -/
def isTime (cs : List Char) : Bool :=
  match (String.ofList cs).splitToList (· == ':') with
  | [h, m] => isClock h m
  | [h, m, s] => isClock h m && isSeconds s
  | _ => false

/-- Text of the form `hh:mm`. -/
def isOffset (cs : List Char) : Bool :=
  match (String.ofList cs).splitToList (· == ':') with
  | [h, m] => isClock h m
  | _ => false

/-- A time, perhaps with its distance from universal time. -/
def isZonedTime (cs : List Char) : Bool :=
  let time := cs.takeWhile fun c => c.isDigit || c == ':' || c == '.'
  match cs.dropWhile fun c => c.isDigit || c == ':' || c == '.' with
  | [] => isTime time
  | ['Z'] | ['z'] => isTime time
  | '+' :: offset => isTime time && isOffset offset
  | '-' :: offset => isTime time && isOffset offset
  | _ => false

/-- A date, a time, or a date with a time. -/
def isMoment (cs : List Char) : Bool :=
  isDate cs || isTime cs ||
    match cs.drop 10 with
    | c :: time => (c == 'T' || c == 't' || c == ' ') && isDate (cs.take 10) && isZonedTime time
    | [] => false

/-! ## Words -/

def isWordChar (c : Char) : Bool := c.isAlphanum || c ∈ ['_', '-', '+', '.', ':']

/-- The word in front of the text; a time may follow a date behind one blank. -/
def valueWord : Scan (List Char) := do
  let word ← takeRun isWordChar
  match ← get with
  | ' ' :: c :: _ =>
    if isDate word && c.isDigit then
      discard next
      return word ++ ' ' :: (← takeRun isWordChar)
    else return word
  | _ => return word

/-- The value of a word. -/
def wordValue? (cs : List Char) : Option Value :=
  if cs == "true".toList then some (.flag true)
  else if cs == "false".toList then some (.flag false)
  else
    match integer? cs, float? cs with
    | some n, _ => some (.integer n)
    | none, some x => some (.float x)
    | none, none => if isMoment cs then some .moment else none

end Toml

end PetriCheck
