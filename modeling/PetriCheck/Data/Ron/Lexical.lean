import PetriCheck.Data.Scan
import PetriCheck.Text.Names

/-!
# The tokens of RON

Reading white space and comments, names, numbers and strings from the front of a text. All ways in which a text can be
at fault count as one.
-/

namespace PetriCheck

namespace Ron

/-- What a text may allow in its head. -/
structure Allowed where
  /-- Wrapped values go without brackets. -/
  bareWrappers : Bool := false
  /-- So do wrapped values inside a variant. -/
  bareVariants : Bool := false
  /-- Optional values may be given as they are. -/
  implicitSome : Bool := false
  /-- Records have to be named. -/
  explicitNames : Bool := false

/-- The types of integers that a suffix of a number names. -/
structure IntegerType where
  signed : Bool
  bits : Nat
deriving DecidableEq

namespace IntegerType

def all : List IntegerType := [true, false].flatMap fun signed => [8, 16, 32, 64].map fun bits => ⟨signed, bits⟩

def suffix (t : IntegerType) : String := (if t.signed then "i" else "u") ++ toString t.bits

/-- Whether a number with a sign and a size is of a type. -/
def holds (t : IntegerType) (negative : Bool) (n : Nat) : Bool :=
  if t.signed then
    if negative then n ≤ 1 <<< (t.bits - 1) else n < 1 <<< (t.bits - 1)
  else n < 1 <<< t.bits && (!negative || n == 0)

end IntegerType

open Scan

namespace Reader

/-- Whether the text goes on with a given name, all of it. -/
def isAtName (s : String) : Scan Bool := do
  return (← isAt s) && !((← get).drop s.toList.length).head?.any Text.isNameChar

def takeName? (s : String) : Scan Bool := do
  let found ← isAtName s
  if found then modify (·.drop s.toList.length)
  return found

/-! ## White space and comments -/

def isBlank (c : Char) : Bool :=
  c ∈ [' ', '\t', '\n', '\r', '\x0b', '\x0c', '\u0085', '\u200e', '\u200f', '\u2028', '\u2029']

/-- What follows the comments that are open, `level` of them inside each other. -/
def afterComment : Nat → List Char → Option (List Char)
  | 0, cs => some cs
  | _ + 1, [] => none
  | level + 1, '/' :: '*' :: cs => afterComment (level + 2) cs
  | level + 1, '*' :: '/' :: cs => afterComment level cs
  | level + 1, _ :: cs => afterComment (level + 1) cs
termination_by _ cs => cs.length

/-- What follows white space and comments. -/
def afterBlanks : Nat → List Char → Option (List Char)
  | 0, cs => some cs
  | fuel + 1, cs =>
    match cs.dropWhile isBlank with
    | '/' :: '/' :: cs => afterBlanks fuel (cs.dropWhile (· ≠ '\n'))
    | '/' :: '*' :: cs => (afterComment 1 cs).bind (afterBlanks fuel)
    | '/' :: _ => none
    | cs => some cs

/-- Passes over white space and comments. -/
def blanks : Scan Unit := do
  let cs ← get
  match afterBlanks (cs.length + 1) cs with
  | some cs => set cs
  | none => fail

/-- A comma with white space around it, if there is one. -/
def comma : Scan Bool := do
  blanks
  let found ← take? ","
  if found then blanks
  return found

/-! ## Names -/

/-- The characters of a name that is marked as raw. -/
def isRawNameChar (c : Char) : Bool := Text.isNameChar c || c == '.' || c == '+' || c == '-'

def isFirstChar (c : Char) : Bool := Text.isNameStart c || c == '_'

/-- Whether the text goes on with a string or byte literal that begins with letters. -/
def isAtLiteral : Scan Bool := do
  let cs ← get
  return ["b\"", "b'", "br#", "br\"", "r\"", "r#\"", "r##"].any (·.toList.isPrefixOf cs)

/-- A name; one with characters of raw names has to be marked. -/
def name : Scan String := do
  let cs ← get
  if !cs.head?.any isFirstChar || (← isAtLiteral) then fail
  else if ← take? "r#" then
    let raw ← takeRun isRawNameChar
    if raw.isEmpty then fail else return String.ofList raw
  else
    let plain := cs.takeWhile Text.isNameChar
    if (cs.takeWhile isRawNameChar).length > plain.length then fail
    else
      set (cs.drop plain.length)
      return String.ofList plain

/-- Passes over a name, if there is one. -/
def skipName? : Scan Bool := do
  let cs ← get
  if ← isAtLiteral then return false
  else if ← isAt "r#" then
    let raw := (cs.drop 2).takeWhile isRawNameChar
    if raw.isEmpty then return false
    else
      set (cs.drop (2 + raw.length))
      return true
  else if cs.head?.any isFirstChar then
    discard (takeRun Text.isNameChar)
    return true
  else return false

/-! ## Numbers -/

def isIntegerChar (c : Char) : Bool := (hexValue? c).isSome || c == '_'

def isDecimalChar (c : Char) : Bool := c.isDigit || c ∈ ['e', 'E', '.', '+', '-', '_']

/-- The base that is marked in front of the digits. -/
def base : Scan Nat := do
  if ← take? "0b" then return 2
  else if ← take? "0o" then return 8
  else if ← take? "0x" then return 16
  else return 10

/-- The size of an integer, behind its sign and the mark of its base. -/
def magnitude (base : Nat) : Scan Nat := do
  let cs ← takeRun isIntegerChar
  if cs.isEmpty || cs.head? == some '_' then fail
  else
    match digitsValue? base (cs.filter (· ≠ '_')) with
    | some n => return n
    | none => fail

/-- The suffix behind a number that names its type, if there is one. -/
def suffix? : Scan (Option IntegerType) := do
  for t in IntegerType.all do
    if ← takeName? t.suffix then return some t
  return none

/-- Whether the integer is negative, behind its sign. -/
def negative : Scan Bool := do
  if ← take? "-" then return true
  discard (take? "+")
  return false

/-- The type and the size of an integer. Without a suffix the type is `plain` of the sign; numbers of the bases eight
and sixteen have no suffix. -/
def integer (plain : Bool → IntegerType) : Scan (IntegerType × Nat) := do
  let negative ← negative
  let base ← base
  let n ← magnitude base
  let named ← if base = 8 ∨ base = 16 then pure none else suffix?
  let type := named.getD (plain negative)
  if type.holds negative n then return (type, n) else fail

/-- An integer below `limit`, a power of two; a suffix has to tell the number of bits. -/
def natural (limit : Nat) : Scan Nat := do
  let own : IntegerType := ⟨false, limit.log2⟩
  let (type, n) ← integer fun _ => own
  if type = own then return n else fail

/-- Whether text is a decimal number, perhaps with a point and an exponent. -/
def isDecimal (cs : List Char) : Bool :=
  let cs := match cs with
    | '+' :: cs => cs
    | '-' :: cs => cs
    | cs => cs
  let whole := cs.takeWhile Char.isDigit
  let (part, cs) := match cs.dropWhile Char.isDigit with
    | '.' :: cs => (cs.takeWhile Char.isDigit, cs.dropWhile Char.isDigit)
    | cs => ([], cs)
  let power := match cs with
    | [] => true
    | c :: cs =>
      let cs := match cs with
        | '+' :: cs => cs
        | '-' :: cs => cs
        | cs => cs
      (c == 'e' || c == 'E') && !cs.isEmpty && cs.all Char.isDigit
  (!whole.isEmpty || !part.isEmpty) && power

/-- Whether underscores stand only behind digits and exponent marks, or behind other underscores. -/
def goodUnderscores : Bool → List Char → Bool
  | _, [] => true
  | allowed, '_' :: cs => allowed && goodUnderscores allowed cs
  | allowed, c :: cs => goodUnderscores (if c == '.' then false else allowed || c.isDigit || c == 'e' || c == 'E') cs

/-- The words for infinity and for what is no number. -/
def specialNumbers : List String :=
  ["inf", "NaN"].flatMap fun word =>
    ["", "+", "-"].flatMap fun sign => ["", "f32", "f64"].map fun suffix => sign ++ word ++ suffix

/-- Takes a word of a special number, if there is one. -/
def takeSpecial? : Scan Bool := do
  for word in specialNumbers do
    if ← takeName? word then return true
  return false

/-- Passes over a decimal number. -/
def skipDecimal : Scan Unit := do
  if ← takeSpecial? then return
  let cs ← takeRun isDecimalChar
  if !(goodUnderscores false cs && isDecimal (cs.filter (· ≠ '_'))) then fail
  if !(← takeName? "f32") then discard (takeName? "f64")

/-- Passes over a number of any kind: an integer of 64 bits or with a suffix, or else a decimal number. -/
def skipNumber : Scan Unit := do
  let body := match ← get with
    | '+' :: cs => cs
    | '-' :: cs => cs
    | cs => cs
  if (body.takeWhile isDecimalChar).length > (body.takeWhile isIntegerChar).length then skipDecimal
  else (discard (integer fun negative => ⟨negative, 64⟩)) <|> skipDecimal

/-! ## Strings -/

/-- The number of two hexadecimal digits. -/
def twoDigits : Scan Nat := do
  match hexValue? (← next), hexValue? (← next) with
  | some a, some b => return a * 16 + b
  | _, _ => fail

/-- The number of at most six hexadecimal digits between braces. -/
def bracedDigits : Scan Nat := do
  expect "\x7b"
  let cs ← takeRun (· ≠ '\x7d')
  expect "\x7d"
  match cs.mapM hexValue? with
  | some ds => if ds.isEmpty || 6 < ds.length then fail else return ds.foldl (· * 16 + ·) 0
  | none => fail

def utf8 (c : Char) : List UInt8 := c.toString.toUTF8.toList

/-- The bytes of an escape sequence, behind the backslash. -/
def escape : Scan (List UInt8) := do
  match ← next with
  | 'n' => return utf8 '\n'
  | 'r' => return utf8 '\r'
  | 't' => return utf8 '\t'
  | '0' => return utf8 '\x00'
  | 'x' => return [(← twoDigits).toUInt8]
  | 'u' =>
    let n ← bracedDigits
    if n.isValidChar then return utf8 (Char.ofNat n) else fail
  | c => if c = '\'' ∨ c = '"' ∨ c = '\\' then return utf8 c else fail

/-- The bytes of a string up to its closing mark, last one first. -/
def stringBytes : Nat → List UInt8 → Scan (List UInt8)
  | 0, _ => fail
  | fuel + 1, seen => do
    match ← next with
    | '"' => return seen
    | '\\' => stringBytes fuel ((← escape).reverse ++ seen)
    | c => stringBytes fuel ((utf8 c).reverse ++ seen)

/-- What stands in front of the closing mark of a raw string, and what follows it. -/
def rawBody (closer : List Char) : List Char → List Char → Option (List Char × List Char)
  | seen, cs =>
    if closer.isPrefixOf cs then some (seen.reverse, cs.drop closer.length)
    else
      match cs with
      | [] => none
      | c :: cs => rawBody closer (c :: seen) cs
termination_by _ cs => cs.length

/-- A raw string, behind its letter. -/
def rawString : Scan String := do
  let hashes ← takeRun (· == '#')
  expect "\""
  match rawBody ('"' :: hashes) [] (← get) with
  | some (body, rest) =>
    set rest
    return String.ofList body
  | none => fail

/-- A string with escape sequences, or a raw string. -/
def string : Scan String := do
  if ← take? "\"" then
    let bytes ← stringBytes ((← get).length + 1) []
    match String.fromUTF8? bytes.reverse.toByteArray with
    | some s => return s
    | none => fail
  else if ← take? "r" then rawString
  else fail

/-- Passes over a string of bytes, which need not be those of a text. -/
def skipByteString : Scan Unit := do
  expect "b"
  if ← take? "\"" then discard (stringBytes ((← get).length + 1) [])
  else if ← take? "r" then discard rawString
  else fail

/-- Passes over a character between single quotes. One byte of it can be given by its number only if it is ASCII. -/
def skipCharacter : Scan Unit := do
  expect "'"
  if (← next) = '\\' then
    match ← escape with
    | [byte] => if 128 ≤ byte then fail
    | _ => pure ()
  expect "'"

/-- Passes over a byte between single quotes: an ASCII character or a number of two digits. -/
def skipByte : Scan Unit := do
  expect "b'"
  let c ← next
  if c = '\\' then
    if ← isAt "u" then fail
    discard escape
  else if 128 ≤ c.toNat then fail
  expect "'"

end Reader

end Ron

end PetriCheck
