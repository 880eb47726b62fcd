import PetriCheck.Data.Ron.Lexical
import PetriCheck.Data.Shape

/-!
# Reading RON

A datum of a given shape is read from the front of the text to its end. The names of records and wrapped values may be
left out, the fields of a record come in any order, and unknown ones are passed over. Values nest to a depth of 128,
where each bracket, each value behind a field name, each item of a list and each variant counts.
-/

namespace PetriCheck

namespace Ron

def maxDepth : Nat := 128

open Scan

namespace Reader

/-- The depth left inside a value. -/
def deeper (depth : Nat) : Scan Nat := if depth = 0 then fail else return depth - 1

/-- Whether one more entry follows before the closing bracket, where `separated` says that a comma came before. -/
def hasEntry (closer : String) (separated : Bool) : Scan Bool := do
  blanks
  if ← isAt closer then return false
  else if separated then return true
  else fail

/-! ## Passing over values -/

/-- Whether a field with its name is in front. -/
def isAtField : Scan Bool := do
  let cs ← get
  blanks
  let named ← skipName?
  blanks
  let found ← isAt ":"
  set cs
  return named && found

/-- Whether more than one value comes before the closing bracket; `level` brackets are open inside it. -/
def hasSeveral : Nat → Nat → Scan Bool
  | 0, _ => fail
  | fuel + 1, level => do
    blanks
    skipCharacter <|> pure ()
    discard string <|> pure ()
    skipByteString <|> pure ()
    let c ← next
    if c ∈ ['(', '[', '\x7b'] then hasSeveral fuel (level + 1)
    else if c ∈ [')', ']', '\x7d'] then
      if level = 0 then return false else hasSeveral fuel (level - 1)
    else if c = ',' ∧ level = 0 then
      blanks
      return !(← isAt ")")
    else hasSeveral fuel level

/-- Whether more than one value is in front before the closing bracket. -/
def isAtSeveral : Scan Bool := do
  let cs ← get
  let several ← hasSeveral (cs.length + 1) 0
  set cs
  return several

mutual

/-- Passes over a value of no interest. -/
def skipValue (allowed : Allowed) : Nat → Nat → Scan Unit
  | 0, _ => fail
  | fuel + 1, depth => do
    if (← takeName? "true") || (← takeName? "false") || (← takeName? "None") then return
    else if ← takeName? "Some" then
      let before ← get
      blanks
      if ← take? "(" then
        blanks
        let depth ← deeper depth
        skipInside allowed fuel depth
        discard comma
        expect ")"
      else if allowed.implicitSome then
        set before
        blanks
        let depth ← deeper depth
        skipValue allowed fuel depth
      else fail
    else if ← take? "()" then return
    else if ← takeSpecial? then return
    else if ← skipName? then
      blanks
      if ← isAt "(" then skipBracket allowed fuel depth
    else
      match ← peek with
      | some '(' => skipBracket allowed fuel depth
      | some '[' =>
        discard next
        let depth ← deeper depth
        skipEntries allowed fuel depth "]" false true
        expect "]"
      | some '\x7b' =>
        discard next
        let depth ← deeper depth
        skipPairs allowed fuel depth true
        expect "\x7d"
      | some '"' | some 'r' => discard string
      | some '\'' => skipCharacter
      | some 'b' => if ← isAt "b'" then skipByte else skipByteString
      | some c => if c.isDigit || c ∈ ['+', '-', '.'] then skipNumber else fail
      | none => fail

/-- Passes over what stands between the brackets of an optional value: a value, or if the head allows it also named
fields, several values or nothing. -/
def skipInside (allowed : Allowed) : Nat → Nat → Scan Unit
  | 0, _ => fail
  | fuel + 1, depth => do
    if !allowed.bareVariants then skipValue allowed fuel depth
    else if ← isAt ")" then return
    else
      let named ← isAtField
      if named || (← isAtSeveral) then
        let depth ← deeper depth
        skipEntries allowed fuel depth ")" named true
      else skipValue allowed fuel depth

/-- Passes over values or named fields between round brackets. -/
def skipBracket (allowed : Allowed) : Nat → Nat → Scan Unit
  | 0, _ => fail
  | fuel + 1, depth => do
    expect "("
    let named ← isAtField
    let depth ← deeper depth
    skipEntries allowed fuel depth ")" named true
    expect ")"

/-- Passes over values or named fields up to the closing bracket. -/
def skipEntries (allowed : Allowed) : Nat → Nat → String → Bool → Bool → Scan Unit
  | 0, _, _, _, _ => fail
  | fuel + 1, depth, closer, named, separated => do
    if ← hasEntry closer separated then
      let inner ← deeper depth
      if named then
        discard name
        blanks
        expect ":"
        blanks
      skipValue allowed fuel inner
      let separated ← comma
      skipEntries allowed fuel depth closer named separated

/-- Passes over the keys and values of a map up to its closing bracket. -/
def skipPairs (allowed : Allowed) : Nat → Nat → Bool → Scan Unit
  | 0, _, _ => fail
  | fuel + 1, depth, separated => do
    if ← hasEntry "\x7d" separated then
      let inner ← deeper depth
      skipValue allowed fuel inner
      blanks
      expect ":"
      blanks
      skipValue allowed fuel inner
      let separated ← comma
      skipPairs allowed fuel depth separated

end

/-! ## Reading values -/

/-- Takes the name of a record or wrapped value, if there is one. -/
def typeName (allowed : Allowed) (expected : String) : Scan Unit := do
  if (← peek).any Text.isNameChar then
    if (← name) != expected then fail
  else if allowed.explicitNames then fail

mutual

/-- A datum of a shape, where `self` is the choice that `again` stands for, and `bare` says that a wrapped value or a
record goes without brackets here. -/
def datum (allowed : Allowed) : Nat → Nat → Bool → Shape → Shape → Scan Datum
  | 0, _, _, _, _ => fail
  | fuel + 1, depth, bare, self, shape => do
    match self.resolve shape with
    | .number limit => return .number (← natural limit)
    | .flag =>
      if ← takeName? "true" then return .flag true
      else if ← takeName? "false" then return .flag false
      else fail
    | .text => return .text (← string)
    | .option item =>
      if ← takeName? "None" then return .absent
      else
        let some? ← takeName? "Some"
        if some? then blanks
        if some? && (← take? "(") then
          blanks
          let depth ← deeper depth
          let d ← datum allowed fuel depth allowed.bareVariants self item
          discard comma
          expect ")"
          return .present d
        else if allowed.implicitSome then
          let depth ← deeper depth
          return .present (← datum allowed fuel depth false self item)
        else fail
    | .wrapper label item =>
      if allowed.bareWrappers || bare then
        let depth ← deeper depth
        return .wrapped (← datum allowed fuel depth false self item)
      else
        typeName allowed label
        blanks
        expect "("
        blanks
        let depth ← deeper depth
        let d ← datum allowed fuel depth false self item
        discard comma
        expect ")"
        return .wrapped d
    | .list item =>
      expect "["
      let depth ← deeper depth
      return .list (← items allowed fuel depth self item true [])
    | .record label fields =>
      if !bare then
        typeName allowed label
        blanks
      return .record (← record allowed fuel depth bare self fields)
    | .choice label variants =>
      let self := .choice label variants
      blanks
      let depth ← deeper depth
      discard (deeper depth)
      let found ← name
      match variants.findIdx? (·.name == found) with
      | none => fail
      | some position =>
        match variants[position]? with
        | some (.unit _) => return .variant position []
        | some (.value _ item) =>
          blanks
          expect "("
          blanks
          let depth ← deeper depth
          let d ← datum allowed fuel depth allowed.bareVariants self item
          discard comma
          expect ")"
          return .variant position [d]
        | some (.fields _ fields) =>
          blanks
          return .variant position (← record allowed fuel depth false self fields)
        | none => fail
    | .again => fail

/-- The items of a list up to its closing bracket. -/
def items (allowed : Allowed) : Nat → Nat → Shape → Shape → Bool → List Datum → Scan (List Datum)
  | 0, _, _, _, _, _ => fail
  | fuel + 1, depth, self, item, separated, seen => do
    if ← hasEntry "]" separated then
      let inner ← deeper depth
      let d ← datum allowed fuel inner false self item
      let separated ← comma
      items allowed fuel depth self item separated (d :: seen)
    else
      expect "]"
      return seen.reverse

/-- The fields of a record, with the brackets around them unless `bare`. -/
def record (allowed : Allowed) : Nat → Nat → Bool → Shape → List Field → Scan (List Datum)
  | 0, _, _, _, _ => fail
  | fuel + 1, depth, bare, self, fields => do
    if !bare then expect "("
    let depth ← deeper depth
    let ds ← namedFields allowed fuel depth self fields true (fields.map fun _ => none)
    if !bare then expect ")"
    return ds

/-- Fields up to a closing bracket, with their names, in any order; `found` has what was read for each field. -/
def namedFields (allowed : Allowed) : Nat → Nat → Shape → List Field → Bool → List (Option Datum) → Scan (List Datum)
  | 0, _, _, _, _, _ => fail
  | fuel + 1, depth, self, fields, separated, found => do
    if ← hasEntry ")" separated then
      let inner ← deeper depth
      let key ← name
      let position := fields.findIdx? (·.name == key)
      if (position.bind (found[·]?.join)).isSome then fail
      blanks
      expect ":"
      blanks
      match position.bind (fields[·]?), position with
      | some f, some i =>
        let d ← datum allowed fuel inner false self f.shape
        let separated ← comma
        namedFields allowed fuel depth self fields separated (found.set i (some d))
      | _, _ =>
        skipValue allowed fuel inner
        let separated ← comma
        namedFields allowed fuel depth self fields separated found
    else
      match fillFields fields found with
      | some ds => return ds
      | none => fail

end

/-! ## Whole texts -/

/-- One thing that the head of a text allows. -/
def allowance (allowed : Allowed) : String → Option Allowed
  | "unwrap_newtypes" => some { allowed with bareWrappers := true }
  | "unwrap_variant_newtypes" => some { allowed with bareVariants := true }
  | "implicit_some" => some { allowed with implicitSome := true }
  | "explicit_struct_names" => some { allowed with explicitNames := true }
  | _ => none

/-- The list of what the head of a text allows. -/
def allowances : Nat → Allowed → Scan Allowed
  | 0, _ => fail
  | fuel + 1, allowed => do
    match allowance allowed (← name) with
    | none => fail
    | some allowed =>
      let separated ← comma
      if ← isAt ")" then return allowed
      else if separated then allowances fuel allowed
      else fail

/-- Each of some marks with white space behind it. -/
def marks : List String → Scan Unit
  | [] => pure ()
  | m :: ms => do
    expect m
    blanks
    marks ms

/-- The head of a text. -/
def header : Nat → Allowed → Scan Allowed
  | 0, allowed => return allowed
  | fuel + 1, allowed => do
    if ← isAt "#" then
      marks ["#", "!", "[", "enable", "("]
      let allowed ← allowances fuel allowed
      marks [")", "]"]
      header fuel allowed
    else return allowed

/-- The datum that a whole text holds. -/
def whole (shape : Shape) : Scan Datum := do
  let size := (← get).length
  blanks
  let allowed ← header (size + 1) {}
  let d ← datum allowed (16 * (size + maxDepth)) maxDepth false shape shape
  blanks
  if (← get).isEmpty then return d else fail

end Reader

/-- Reads the text of a datum. -/
def parse? (shape : Shape) (text : String) : Option Datum :=
  ((Reader.whole shape).run text.toList).map Prod.fst

end Ron

end PetriCheck
