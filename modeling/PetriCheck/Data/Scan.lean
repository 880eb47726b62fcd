/-!
# Taking a text apart

Readers that take characters from the front of a text, for formats where all ways in which a text can be at fault count
as one.
-/

namespace PetriCheck

/-- Takes characters from the front of a text, or fails. -/
abbrev Scan := StateT (List Char) Option

namespace Scan

def fail {α : Type} : Scan α := failure

def peek : Scan (Option Char) := do return (← get).head?

def next : Scan Char := do
  match ← get with
  | [] => fail
  | c :: cs =>
    set cs
    return c

/-- Takes the characters in front that are in a class. -/
def takeRun (p : Char → Bool) : Scan (List Char) := do
  let cs ← get
  set (cs.dropWhile p)
  return cs.takeWhile p

/-- Whether the text goes on with given characters. -/
def isAt (s : String) : Scan Bool := do return s.toList.isPrefixOf (← get)

/-- Takes given characters if the text goes on with them. -/
def take? (s : String) : Scan Bool := do
  let found ← isAt s
  if found then modify (·.drop s.toList.length)
  return found

/-- Takes given characters. -/
def expect (s : String) : Scan Unit := do
  if !(← take? s) then fail

/-- The value of a hexadecimal digit. -/
def hexValue? (c : Char) : Option Nat :=
  if c.isDigit then some (c.toNat - '0'.toNat)
  else if 'a' ≤ c ∧ c ≤ 'f' then some (c.toNat - 'a'.toNat + 10)
  else if 'A' ≤ c ∧ c ≤ 'F' then some (c.toNat - 'A'.toNat + 10)
  else none

/-- The number that digits of a base write. -/
def digitsValue? (base : Nat) (cs : List Char) : Option Nat :=
  cs.foldlM (fun n c => (hexValue? c).bind fun d => if d < base then some (n * base + d) else none) 0

end Scan

end PetriCheck
