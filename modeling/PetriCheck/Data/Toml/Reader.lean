import PetriCheck.Data.Toml.Scalar

/-!
# Reading TOML

A document is a list of lines, each with a header, a key with its value, or nothing, and perhaps a comment. Arrays and
inline tables may go over several lines and have a comma behind their last entry; they nest to a depth of 80. A key has
at most 80 names.
-/

namespace PetriCheck

namespace Toml

open Scan

/-- How deep values nest, and how many names a key has. -/
def maxDepth : Nat := 80

/-- Passes over a comment, if there is one. -/
def skipComment : Scan Unit := do
  if ← take? "#" then discard (takeRun isPrintable)

/-- Passes over white space, ends of lines and comments. -/
def skipLines : Nat → Scan Unit
  | 0 => pure ()
  | fuel + 1 => do
    skipBlanks
    skipComment
    if ← newline? then skipLines fuel

/-! ## Keys -/

def isKeyChar (c : Char) : Bool := c.isAlphanum || c == '_' || c == '-'

/-- One name of a key. -/
def keyPart : Scan String := do
  match ← peek with
  | some '"' | some '\'' => string false
  | _ =>
    let cs ← takeRun isKeyChar
    if cs.isEmpty then fail else return String.ofList cs

/-- The names of a key, at most so many, with dots between them and white space around. -/
def key : Nat → Scan (List String)
  | 0 => fail
  | count + 1 => do
    skipBlanks
    let part ← keyPart
    skipBlanks
    if ← take? "." then return part :: (← key count) else return [part]

/-! ## Values -/

mutual

/-- A value, where `depth` more brackets may be opened. -/
def value : Nat → Nat → Scan Value
  | 0, _ => fail
  | fuel + 1, depth => do
    match ← peek with
    | some '"' | some '\'' => return .text (← string true)
    | some '[' =>
      discard next
      if depth = 0 then fail else return .array (← items fuel (depth - 1))
    | some '\x7b' =>
      discard next
      if depth = 0 then fail else return .table (Node.entriesToValue (← fields fuel (depth - 1) []))
    | _ =>
      match wordValue? (← valueWord) with
      | some v => return v
      | none => fail

/-- The items of an array up to its closing bracket. -/
def items : Nat → Nat → Scan (List Value)
  | 0, _ => fail
  | fuel + 1, depth => do
    skipLines fuel
    if ← take? "]" then return []
    else
      let v ← value fuel depth
      skipLines fuel
      if ← take? "," then return v :: (← items fuel depth)
      else
        expect "]"
        return [v]

/-- The keys and values of an inline table up to its closing brace. -/
def fields : Nat → Nat → Node.Entries → Scan Node.Entries
  | 0, _, _ => fail
  | fuel + 1, depth, entries => do
    skipLines fuel
    if ← take? "\x7d" then return entries
    else
      let path ← key maxDepth
      skipLines fuel
      expect "="
      skipLines fuel
      let v ← value fuel depth
      skipLines fuel
      match Node.add v path entries with
      | none => fail
      | some entries =>
        if ← take? "," then fields fuel depth entries
        else
          expect "\x7d"
          return entries

end

/-! ## Documents -/

/-- Where keys go: the document so far and the path of the table that is open. -/
structure Place where
  entries : Node.Entries := []
  path : List String := []

/-- What is on one line, apart from white space and comments. -/
def line (fuel : Nat) (p : Place) : Scan Place := do
  if ← take? "[[" then
    let path ← key maxDepth
    expect "]]"
    match Node.openItem path p.entries with
    | some entries => return { entries, path }
    | none => fail
  else if ← take? "[" then
    let path ← key maxDepth
    expect "]"
    match Node.openTable path p.entries with
    | some entries => return { entries, path }
    | none => fail
  else
    match ← peek with
    | none | some '\n' | some '\r' | some '#' => return p
    | some _ =>
      let path ← key maxDepth
      expect "="
      skipBlanks
      let v ← value fuel maxDepth
      match Node.within (Node.add v path) p.path p.entries with
      | some entries => return { p with entries }
      | none => fail

/-- The lines up to the end of the text. -/
def lines (fuel : Nat) : Nat → Place → Scan Place
  | 0, _ => fail
  | count + 1, p => do
    skipBlanks
    let p ← line fuel p
    skipBlanks
    skipComment
    if (← get).isEmpty then return p
    else if ← newline? then lines fuel count p
    else fail

/-- The table that a document says; a mark of byte order may stand in front. -/
def parse? (text : String) : Option (List (String × Value)) :=
  let cs := match text.toList with
    | '\ufeff' :: cs => cs
    | cs => cs
  let fuel := 4 * (cs.length + maxDepth)
  ((lines fuel fuel {}).run cs).map fun (p, _) => Node.entriesToValue p.entries

end Toml

end PetriCheck
