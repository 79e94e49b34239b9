/-! Floats written with one decimal place. -/
namespace UtilityCss.Text

/-- The quotient rounded to the nearest number; a half goes to the even neighbour. -/
def roundDiv (n d : Nat) : Nat :=
  if 2 * (n % d) < d || (2 * (n % d) = d && n / d % 2 = 0) then n / d else n / d + 1

/-- A finite float as `± mantissa * 2 ^ exponent`. -/
structure BinaryFloat where
  negative : Bool
  mantissa : Nat
  exponent : Int
  deriving DecidableEq, Repr

namespace BinaryFloat

/-- Takes the bits of a finite float apart. -/
def ofFloat (x : Float) : BinaryFloat :=
  let bits := x.toBits.toNat
  let exponent := bits / 0x10000000000000 % 0x800
  let fraction := bits % 0x10000000000000
  { negative := bits / 0x8000000000000000 == 1
    mantissa := if exponent = 0 then fraction else fraction + 0x10000000000000
    exponent := (max exponent 1 : Nat) - 1075 }

/-- The nearest number of tenths, without the sign. -/
def tenths (x : BinaryFloat) : Nat :=
  if 0 ≤ x.exponent then 10 * x.mantissa * Nat.pow 2 x.exponent.toNat
  else roundDiv (10 * x.mantissa) (Nat.pow 2 (-x.exponent).toNat)

end BinaryFloat

/-- A finite float with one decimal place. The sign stays even if only zeros are left. -/
def oneDecimal (x : Float) : String :=
  let b := BinaryFloat.ofFloat x
  (if b.negative then "-" else "") ++ toString (b.tenths / 10) ++ "." ++ toString (b.tenths % 10)

end UtilityCss.Text
