/-!
# Bit strings

Finite bit strings, first bit first: their order, their reading and writing as text, and the big-endian strings of
bytes and numbers. Packed keys (`Key`) and the state index are described through them.
-/

namespace PetriCheck

/-- A finite bit string, first bit first. -/
abbrev Bits := List Bool

namespace Bits

/-- Bitwise lexicographic order; a proper initial part comes before its extensions. -/
def compare : Bits → Bits → Ordering
  | [], [] => .eq
  | [], _ :: _ => .lt
  | _ :: _, [] => .gt
  | false :: _, true :: _ => .lt
  | true :: _, false :: _ => .gt
  | false :: a, false :: b => compare a b
  | true :: a, true :: b => compare a b

/-- The digit that stands for a bit. -/
def digit (b : Bool) : Char := if b then '1' else '0'

/-- The bits written as a row of digits `0` and `1`. -/
def render (bits : Bits) : String := String.ofList (bits.map digit)

/-- Reads a row of digits; any other character is refused. -/
def parse? (text : String) : Option Bits :=
  text.toList.mapM fun c => if c = '0' then some false else if c = '1' then some true else none

/-- The lowest `width` bits of `n`, most significant first. -/
def ofNat : Nat → Nat → Bits
  | 0, _ => []
  | width + 1, n => n.testBit width :: ofNat width n

/-- The number that a bit string writes, most significant bit first. -/
def toNat (bits : Bits) : Nat := bits.foldl (fun n b => 2 * n + b.toNat) 0

/-- The eight bits of a byte, most significant first. -/
def ofByte (byte : UInt8) : Bits := ofNat 8 byte.toNat

end Bits

end PetriCheck
