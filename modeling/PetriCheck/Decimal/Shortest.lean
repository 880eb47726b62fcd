/-!
# The shortest decimal of a double-precision number

A double-precision number stands for all reals that round to it. Its shortest decimal is the one with the fewest digits
among those reals, and of several the one that is nearest to the number; of two that are equally near it is the larger
one. It is found by exact arithmetic: for one, two, and more digits the two neighbours of the number on the grid of
decimals with so many digits are tried.
-/

namespace PetriCheck

namespace Decimal

/-- A finite positive number `mantissa * 2 ^ exponent`. -/
structure Binary where
  mantissa : Nat
  exponent : Int
  /-- The number below is nearer than the number above. -/
  narrowBelow : Bool

/-- The bit in front of the 52 bits of a fraction. -/
def leadingBit : Nat := 1 <<< 52

/-- The sign of the bits of a number. -/
def signBit : Nat := 1 <<< 63

/-- The number of the bits of a finite positive double-precision number. -/
def Binary.ofBits (bits : UInt64) : Binary :=
  let fraction : Nat := bits.toNat % leadingBit
  let power : Nat := bits.toNat / leadingBit % 2048
  if power = 0 then ⟨fraction, -1074, false⟩
  else ⟨leadingBit + fraction, (power : Int) - 1075, fraction == 0 && decide (1 < power)⟩

/-- Compares `a * 10 ^ i` with `n * 2 ^ j`. -/
def compareScaled (a : Nat) (i : Int) (n : Nat) (j : Int) : Ordering :=
  compare ((a * Nat.pow 10 i.toNat) <<< (-j).toNat) ((n * Nat.pow 10 (-i).toNat) <<< j.toNat)

/-- Whether the decimal `a * 10 ^ i` is among the reals that round to a number. The ends of their interval belong to it
if the mantissa is even. -/
def Binary.covers (x : Binary) (a : Nat) (i : Int) : Bool :=
  let low := compareScaled a i (if x.narrowBelow then 4 * x.mantissa - 1 else 4 * x.mantissa - 2) (x.exponent - 2)
  let high := compareScaled a i (4 * x.mantissa + 2) (x.exponent - 2)
  let closed := x.mantissa % 2 == 0
  (low == .gt || (closed && low == .eq)) && (high == .lt || (closed && high == .eq))

/-- The whole part of a number divided by `10 ^ i`. -/
def Binary.wholeAt (x : Binary) (i : Int) : Nat :=
  (x.mantissa * Nat.pow 10 (-i).toNat) <<< x.exponent.toNat / (Nat.pow 10 i.toNat <<< (-x.exponent).toNat)

/-- Of the neighbours of a number on the grid `10 ^ i`, the one that is nearer among those that round to it, and the one
above if both are equally near. -/
def Binary.onGrid? (x : Binary) (i : Int) : Option Nat :=
  let a := x.wholeAt i
  match x.covers a i, x.covers (a + 1) i with
  | true, true => if compareScaled (2 * a + 1) i (2 * x.mantissa) x.exponent == .gt then some a else some (a + 1)
  | true, false => some a
  | false, true => some (a + 1)
  | false, false => none

/-- The number of decimal digits in front of the point, or minus the number of zeros behind it. -/
def Binary.scale (x : Binary) : Int :=
  let whole := x.wholeAt 0
  if whole ≠ 0 then (Nat.toDigits 10 whole).length
  else -((List.range 400).takeWhile fun n => x.wholeAt (-(n + 1 : Nat)) == 0).length

/-- The shortest decimal of a number, as digits and a power of ten. -/
def Binary.shortest (x : Binary) : Nat × Int :=
  let grids := (List.range 18).map fun (n : Nat) => x.scale - 1 - (n : Int)
  match grids.findSome? fun i => (x.onGrid? i).map fun a => (a, i) with
  | some found => found
  | none => (x.wholeAt (-1074), -1074)

/-- Digits times a power of ten without exponent: with zeros in front of the point or behind it as needed. -/
def positional (digits : Nat) (power : Int) : String :=
  let text := Nat.toDigits 10 digits
  if 0 ≤ power then String.ofList (text ++ List.replicate power.toNat '0')
  else
    let places := (-power).toNat
    let padded := List.replicate (places + 1 - text.length) '0' ++ text
    let fraction := (padded.drop (padded.length - places)).reverse.dropWhile (· == '0') |>.reverse
    let whole := padded.take (padded.length - places)
    String.ofList (if fraction.isEmpty then whole else whole ++ '.' :: fraction)

/-- The text of a double-precision number: its shortest decimal, without exponent. -/
def render (x : Float) : String :=
  if x.isNaN then "NaN"
  else
    let sign := if x.toBits.toNat ≥ signBit then "-" else ""
    let size := x.toBits.toNat % signBit
    if x.isInf then sign ++ "inf"
    else if size = 0 then sign ++ "0"
    else
      let (digits, power) := (Binary.ofBits size.toUInt64).shortest
      sign ++ positional digits power

/-- A number times `factor`, rounded to the nearest integer; a half goes to the even one. -/
def Binary.roundedTimes (x : Binary) (factor : Nat) : Nat :=
  let top := (x.mantissa * factor) <<< x.exponent.toNat
  let bottom := 1 <<< (-x.exponent).toNat
  let whole := top / bottom
  match compare (2 * (top % bottom)) bottom with
  | .lt => whole
  | .gt => whole + 1
  | .eq => whole + whole % 2

end Decimal

end PetriCheck
