import PetriCheck.Data.Json.Lexical
import PetriCheck.Data.Shape

/-!
# Reading JSON

A datum of a given shape is read from the front of the text to its end. The fields of a record come in any order,
unknown ones are passed over, and a record may also be written as the array of its fields. Brackets nest to a depth of
less than 128 outside unknown fields.
-/

namespace PetriCheck

namespace Json

/-- The depth from which on brackets are malformed. -/
def maxDepth : Nat := 128

namespace Reader

/-- Passes over a value of no interest. `closers` are the brackets still open, innermost first. -/
def skipOpen : Nat → List Char → Reader Unit
  | 0, _ => fail .unfinished
  | fuel + 1, closers => do
    match ← peekToken with
    | none => fail .unfinished
    | some '[' => drop; first fuel (']' :: closers)
    | some '\x7b' => drop; first fuel ('\x7d' :: closers)
    | some 'n' => word "null".toList; next fuel closers
    | some 't' => word "true".toList; next fuel closers
    | some 'f' => word "false".toList; next fuel closers
    | some '"' => discard (string true); next fuel closers
    | some c =>
      if c = '-' ∨ c.isDigit then
        skipNumber
        next fuel closers
      else fail .malformed
where
  /-- Behind an opening bracket. -/
  first : Nat → List Char → Reader Unit
    | 0, _ => fail .unfinished
    | fuel + 1, closers => do
      match closers, ← peekToken with
      | [], _ => pure ()
      | _, none => fail .unfinished
      | closer :: outer, some c =>
        if c = closer then
          drop
          next fuel outer
        else item fuel closers
  /-- Behind a value. -/
  next : Nat → List Char → Reader Unit
    | 0, _ => fail .unfinished
    | fuel + 1, closers => do
      match closers with
      | [] => pure ()
      | closer :: outer =>
        match ← peekToken with
        | none => fail .unfinished
        | some c =>
          if c = closer then
            drop
            next fuel outer
          else if c = ',' then
            drop
            item fuel closers
          else fail .malformed
  /-- Where an item or a field has to follow. -/
  item : Nat → List Char → Reader Unit
    | 0, _ => fail .unfinished
    | fuel + 1, closers => do
      if closers.head? = some '\x7d' then
        match ← peekToken with
        | none => fail .unfinished
        | some '"' => discard (string true)
        | some _ => fail .malformed
        match ← peekToken with
        | none => fail .unfinished
        | some ':' => drop
        | some _ => fail .malformed
      skipOpen fuel closers

/-- Passes over a value of no interest. -/
def skipValue : Reader Unit := do skipOpen (4 * (← get).length + 4) []

/-- Fails at a value of the wrong kind. What can be read of the value is read first, since it may be malformed itself.
-/
def wrongKind {α : Type} : Reader α := do
  match ← peekToken with
  | none => fail .unfinished
  | some 'n' => word "null".toList
  | some 't' => word "true".toList
  | some 'f' => word "false".toList
  | some '"' => discard (string false)
  | some '[' | some '\x7b' => pure ()
  | some c => if c = '-' ∨ c.isDigit then discard number else fail .malformed
  fail .mismatch

/-- Takes an opening bracket; gives the depth left inside. -/
def enter (depth : Nat) : Reader Nat := do
  if depth ≤ 1 then fail .malformed
  else
    drop
    return depth - 1

/-- Takes the colon behind a key. -/
def colon : Reader Unit := do
  match ← peekToken with
  | none => fail .unfinished
  | some ':' => drop
  | some _ => fail .malformed

/-- Whether a list has a next item; what is before the item is taken. -/
def hasItem (first : Bool) : Reader Bool := do
  match ← peekToken with
  | none => fail .unfinished
  | some ']' => return false
  | some c =>
    if first then return true
    else if c = ',' then
      drop
      match ← peekToken with
      | none => fail .unfinished
      | some ']' => fail .malformed
      | some _ => return true
    else fail .malformed

/-- Whether an object has a next key; what is before the key is taken. -/
def hasKey (first : Bool) : Reader Bool := do
  match ← peekToken with
  | none => fail .unfinished
  | some '\x7d' => return false
  | some c =>
    if !first then
      if c = ',' then drop else fail .malformed
    match ← peekToken with
    | none => fail .unfinished
    | some '"' => return true
    | some _ => fail .malformed

/-- Takes a closing bracket. -/
def close (bracket : Char) : Reader Unit := do
  match ← peekToken with
  | none => fail .unfinished
  | some c => if c = bracket then drop else fail .malformed

mutual

/-- A datum of a shape, where `self` is the choice that `again` stands for. -/
def datum : Nat → Nat → Shape → Shape → Reader Datum
  | 0, _, _, _ => fail .malformed
  | fuel + 1, depth, self, shape => do
    match self.resolve shape with
    | .number limit =>
      match ← peekToken with
      | none => fail .unfinished
      | some c =>
        if c = '-' ∨ c.isDigit then
          match ← number with
          | some n => if n < limit then return .number n else fail .mismatch
          | none => fail .mismatch
        else wrongKind
    | .flag =>
      match ← peekToken with
      | some 't' => word "true".toList; return .flag true
      | some 'f' => word "false".toList; return .flag false
      | _ => wrongKind
    | .text =>
      match ← peekToken with
      | some '"' => return .text (← string false)
      | _ => wrongKind
    | .option item =>
      match ← peekToken with
      | some 'n' => word "null".toList; return .absent
      | _ => return .present (← datum fuel depth self item)
    | .wrapper _ item => return .wrapped (← datum fuel depth self item)
    | .list item =>
      match ← peekToken with
      | some '[' =>
        let depth ← enter depth
        let ds ← items fuel depth self item true []
        return .list ds
      | _ => wrongKind
    | .record _ fields => return .record (← record fuel depth self fields)
    | .choice name variants =>
      let self := .choice name variants
      match ← peekToken with
      | none => fail .unfinished
      | some '"' =>
        let position ← variant variants
        match variants[position]? with
        | some (.unit _) => return .variant position []
        | _ => fail .mismatch
      | some '\x7b' =>
        let depth ← enter depth
        match ← peekToken with
        | some '"' =>
          let position ← variant variants
          colon
          let payload ← match variants[position]? with
            | some (.unit _) => do
              match ← peekToken with
              | some 'n' => word "null".toList; pure []
              | _ => wrongKind
            | some (.value _ item) => do
              let d ← datum fuel depth self item
              pure [d]
            | some (.fields _ fields) => record fuel depth self fields
            | none => fail .mismatch
          close '\x7d'
          return .variant position payload
        | some _ => fail .malformed
        | none => fail .unfinished
      | some _ => fail .malformed
    | .again => fail .mismatch

/-- The items of a list up to its closing bracket. -/
def items : Nat → Nat → Shape → Shape → Bool → List Datum → Reader (List Datum)
  | 0, _, _, _, _, _ => fail .malformed
  | fuel + 1, depth, self, item, first, seen => do
    if ← hasItem first then
      let d ← datum fuel depth self item
      items fuel depth self item false (d :: seen)
    else
      drop
      return seen.reverse

/-- The fields of a record, as an object or as an array. -/
def record : Nat → Nat → Shape → List Field → Reader (List Datum)
  | 0, _, _, _ => fail .malformed
  | fuel + 1, depth, self, fields => do
    match ← peekToken with
    | some '\x7b' =>
      let depth ← enter depth
      namedFields fuel depth self fields true (fields.map fun _ => none)
    | some '[' =>
      let depth ← enter depth
      let ds ← orderedFields fuel depth self fields true
      close ']'
      return ds
    | _ => wrongKind

/-- Fields with their names, in any order; `found` has what was read for each field. -/
def namedFields : Nat → Nat → Shape → List Field → Bool → List (Option Datum) → Reader (List Datum)
  | 0, _, _, _, _, _ => fail .malformed
  | fuel + 1, depth, self, fields, first, found => do
    if ← hasKey first then
      let key ← string false
      match fields.findIdx? (·.name == key) with
      | some i =>
        if (found[i]?.getD none).isSome then fail .mismatch
        colon
        match fields[i]? with
        | some f =>
          let d ← datum fuel depth self f.shape
          namedFields fuel depth self fields false (found.set i (some d))
        | none => fail .mismatch
      | none =>
        colon
        skipValue
        namedFields fuel depth self fields false found
    else
      match fillFields fields found with
      | some ds => drop; return ds
      | none => fail .mismatch

/-- Fields without names, in the order of the record. -/
def orderedFields : Nat → Nat → Shape → List Field → Bool → Reader (List Datum)
  | 0, _, _, _, _ => fail .malformed
  | _ + 1, _, _, [], _ => return []
  | fuel + 1, depth, self, f :: fs, first => do
    if ← hasItem first then
      let d ← datum fuel depth self f.shape
      return d :: (← orderedFields fuel depth self fs false)
    else
      match f.default with
      | some d => return d :: (← orderedFields fuel depth self fs first)
      | none => fail .mismatch

/-- The position of the variant that a string names. -/
def variant (variants : List Variant) : Reader Nat := do
  let name ← string false
  match variants.findIdx? (·.name == name) with
  | some i => return i
  | none => fail .mismatch

end

/-- The datum that a whole text holds. -/
def whole (shape : Shape) : Reader Datum := do
  let d ← datum (16 * ((← get).length + maxDepth)) maxDepth shape shape
  match ← peekToken with
  | none => return d
  | some _ => fail .malformed

end Reader

/-- Reads the text of a datum. -/
def parse (shape : Shape) (text : String) : Except Fault Datum :=
  match (Reader.whole shape).run text.toList with
  | .ok (d, _) => .ok d
  | .error e => .error e

end Json

end PetriCheck
