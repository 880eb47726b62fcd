import PetriCheck.Data.Scan

/-!
# The tokens of JSON

Reading white space, the three literal words, numbers and strings from the front of a text. A text can be at fault in
three ways: it breaks the format, it says something of the wrong shape, or it ends too soon; the first fault that
reading meets is the one reported.
-/

namespace PetriCheck

namespace Json

/-- What is wrong with a text. -/
inductive Fault where
  /-- The format is broken. -/
  | malformed
  /-- The text is well formed so far and says something else than asked for. -/
  | mismatch
  /-- The text ends too soon. -/
  | unfinished
deriving DecidableEq, Inhabited

/-- Readers take characters from the front of a text. -/
abbrev Reader := StateT (List Char) (Except Fault)

namespace Reader

def fail {α : Type} (f : Fault) : Reader α := throw f

def peek : Reader (Option Char) := do return (← get).head?

def drop : Reader Unit := modify List.tail

def isBlank (c : Char) : Bool := c == ' ' || c == '\n' || c == '\t' || c == '\r'

/-- The first character behind white space, which is not taken. -/
def peekToken : Reader (Option Char) := do
  modify (·.dropWhile isBlank)
  peek

/-- Takes the characters of a word. -/
def word : List Char → Reader Unit
  | [] => pure ()
  | c :: rest => do
    match ← peek with
    | none => fail .unfinished
    | some d => if d = c then drop; word rest else fail .malformed

/-! ## Numbers -/

/-- Takes the digits in front. -/
def digits : Reader (List Char) := do
  let cs ← get
  set (cs.dropWhile Char.isDigit)
  return cs.takeWhile Char.isDigit

/-- A decimal number on the way: the digits kept so far as one number, and the power of ten it is to be multiplied with.
-/
structure Decimal where
  mantissa : Nat
  exponent : Int

/-- Whether a number has room for one more digit. -/
def roomFor (mantissa : Nat) (c : Char) : Bool := mantissa * 10 + (c.toNat - '0'.toNat) < UInt64.size

/-- More digits in front of the point: from the first one on that has no room, each counts as a power of ten only. -/
def Decimal.integral (d : Decimal) : List Char → Decimal
  | [] => d
  | c :: cs =>
    if d.exponent = 0 ∧ roomFor d.mantissa c then
      Decimal.integral ⟨d.mantissa * 10 + (c.toNat - '0'.toNat), 0⟩ cs
    else Decimal.integral { d with exponent := d.exponent + 1 } cs

/-- More digits behind the point; those from the first one on that has no room are left out. -/
def Decimal.fractional (d : Decimal) : List Char → Decimal
  | [] => d
  | c :: cs =>
    if roomFor d.mantissa c then
      Decimal.fractional ⟨d.mantissa * 10 + (c.toNat - '0'.toNat), d.exponent - 1⟩ cs
    else d

/-- Whether a decimal number is too large for a double-precision number. -/
def Decimal.overflows (d : Decimal) : Bool :=
  d.mantissa ≠ 0 && decide (0 ≤ d.exponent) &&
    (decide (308 < d.exponent) || (Float.ofNat d.mantissa * Float.ofScientific 1 false d.exponent.toNat).isInf)

/-- A decimal number that no integer shows; all that matters is that it is not too large. -/
def fraction (d : Decimal) : Reader (Option Nat) := if d.overflows then fail .malformed else pure none

/-- The largest exponent that is read as written. -/
def maxExponent : Nat := 2147483647

/-- The exponent of a number, behind its mark. -/
def scaled (d : Decimal) : Reader (Option Nat) := do
  let negative := (← peek) == some '-'
  if (← peek) == some '+' || (← peek) == some '-' then drop
  match ← peek with
  | none => fail .unfinished
  | some c =>
    if c.isDigit then
      let n := (← digits).foldl (fun n c => n * 10 + (c.toNat - '0'.toNat)) 0
      if n ≤ maxExponent then
        fraction { d with exponent := if negative then d.exponent - n else d.exponent + n }
      else if d.mantissa ≠ 0 && !negative then fail .malformed
      else pure none
    else fail .malformed

/-- What follows the digits in front of the point. -/
def numberTail (negative : Bool) (d : Decimal) : Reader (Option Nat) := do
  match ← peek with
  | some '.' =>
    drop
    match ← peek, ← digits with
    | none, _ => fail .unfinished
    | some _, [] => fail .malformed
    | some _, ds =>
      let d := d.fractional ds
      match ← peek with
      | some 'e' | some 'E' => drop; scaled d
      | _ => fraction d
  | some 'e' | some 'E' => drop; scaled d
  | _ =>
    if d.exponent ≠ 0 then fraction d
    else if negative then pure none
    else pure (some d.mantissa)

/-- A number: its value if it is an integer from 0 to 2^64 - 1 that is written without sign, point and exponent. -/
def number : Reader (Option Nat) := do
  let negative := (← peek) == some '-'
  if negative then drop
  match ← peek with
  | none => fail .unfinished
  | some '0' =>
    drop
    match ← peek with
    | some c => if c.isDigit then fail .malformed else numberTail negative ⟨0, 0⟩
    | none => numberTail negative ⟨0, 0⟩
  | some c => if c.isDigit then numberTail negative (Decimal.integral ⟨0, 0⟩ (← digits)) else fail .malformed

/-- Passes over a number whose value does not matter; one that ends too soon is malformed. -/
def skipNumber : Reader Unit := do
  if (← peek) == some '-' then drop
  match ← digits with
  | [] => fail .malformed
  | '0' :: _ :: _ => fail .malformed
  | _ => pure ()
  if (← peek) == some '.' then
    drop
    if (← digits).isEmpty then fail .malformed
  if (← peek) == some 'e' || (← peek) == some 'E' then
    drop
    if (← peek) == some '+' || (← peek) == some '-' then drop
    if (← digits).isEmpty then fail .malformed

/-! ## Strings -/

/-- The number of four hexadecimal digits; a text of fewer than four bytes ends too soon. -/
def fourDigits : Reader Nat := do
  let cs ← get
  if (String.ofList (cs.take 4)).utf8ByteSize < 4 then fail .unfinished
  else
    match (cs.take 4).mapM Scan.hexValue? with
    | some [a, b, c, d] =>
      set (cs.drop 4)
      return ((a * 16 + b) * 16 + c) * 16 + d
    | _ => fail .malformed

/-- Takes a given character of an escape sequence. -/
def escaped (c : Char) : Reader Unit := do
  match ← peek with
  | none => fail .unfinished
  | some d => if d = c then drop else fail .malformed

/-- A character by its number, or by the two halves of a surrogate pair. -/
def codePoint : Reader Char := do
  let n ← fourDigits
  if 0xDC00 ≤ n ∧ n ≤ 0xDFFF then fail .malformed
  else if 0xD800 ≤ n ∧ n ≤ 0xDBFF then
    escaped '\\'
    escaped 'u'
    let m ← fourDigits
    if 0xDC00 ≤ m ∧ m ≤ 0xDFFF then return Char.ofNat ((n - 0xD800) * 0x400 + (m - 0xDC00) + 0x10000)
    else fail .malformed
  else return Char.ofNat n

/-- The character of an escape sequence, behind the backslash. Where the string does not matter (`skipped`), halves of
surrogate pairs may stand alone. -/
def escape (skipped : Bool) : Reader Char := do
  match ← peek with
  | none => fail .unfinished
  | some c =>
    drop
    match c with
    | '"' | '\\' | '/' => return c
    | 'b' => return '\x08'
    | 'f' => return '\x0c'
    | 'n' => return '\n'
    | 'r' => return '\r'
    | 't' => return '\t'
    | 'u' => if skipped then return Char.ofNat (← fourDigits) else codePoint
    | _ => fail .malformed

/-- The characters of a string up to its closing mark, at most `fuel` of them. -/
def characters (skipped : Bool) : Nat → List Char → Reader String
  | 0, _ => fail .unfinished
  | fuel + 1, seen => do
    match ← peek with
    | none => fail .unfinished
    | some '"' =>
      drop
      return String.ofList seen.reverse
    | some '\\' =>
      drop
      let c ← escape skipped
      characters skipped fuel (c :: seen)
    | some c =>
      if c < ' ' then fail .malformed
      else
        drop
        characters skipped fuel (c :: seen)

/-- A string, from its opening mark on. -/
def string (skipped : Bool) : Reader String := do
  drop
  characters skipped ((← get).length + 1) []

end Reader

end Json

end PetriCheck
