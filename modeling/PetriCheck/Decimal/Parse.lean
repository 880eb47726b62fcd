/-!
# Reading decimal numbers

The double-precision number nearest to a decimal number with a power of ten.
-/

namespace PetriCheck

namespace Decimal

/-- The double-precision number nearest to `digits * 10 ^ power`; none if that is infinite. Powers beyond all
double-precision numbers are not worked out. -/
def toFloat? (negative : Bool) (digits : Nat) (power : Int) : Option Float :=
  let size : Int := (Nat.toDigits 10 digits).length + power
  let magnitude : Option Float :=
    if digits = 0 ∨ size < -400 then some 0.0
    else if 400 < size then none
    else
      let x := if 0 ≤ power then Float.ofScientific digits false power.toNat
        else Float.ofScientific digits true (-power).toNat
      if x.isInf then none else some x
  magnitude.map fun x => if negative then -x else x

end Decimal

end PetriCheck
