import Reckon.Double

/-! # Rounding to the nearest double

`Double.ofRatio` gives the double nearest to a quotient of whole numbers, a tie going to the even
significand. Counted in units of `2 ^ -1074` a positive double is `m * 2 ^ s` with `m < 2 ^ 53`,
and its bits, read as a number, are `s * 2 ^ 52 + m`: at `s = 0` there is no hidden bit, and above
it the hidden bit of `m` carries the exponent up by one. The same carry makes the next power of
two out of an `m` that rounded up to `2 ^ 53`, and infinity out of a number that is too large.
-/

namespace Reckon

/-- The whole number nearest to `num / den`; of two equally near, the even one. -/
def roundHalfEven (num den : Nat) : Nat :=
  let quotient := num / den
  let twice := 2 * (num % den)
  if twice < den then quotient
  else if den < twice then quotient + 1
  else quotient + quotient % 2

def tenTo (exponent : Nat) : Nat := Nat.pow 10 exponent

/-- The number `significand * 10 ^ exponent`. -/
structure Decimal where
  significand : Nat
  exponent : Int
  deriving DecidableEq, Repr, Inhabited

namespace Double

/-- The bits of the double nearest to `num / den`; those of infinity are the greatest. -/
def nearestBits (num den : Nat) : Nat :=
  let scaled := num * unitsOfOne
  let shift := (scaled / den).log2 - 52
  let bits := shift * hiddenBit + roundHalfEven scaled (den * Nat.pow 2 shift)
  if bits < infinityBits then bits else infinityBits

/-- The double nearest to `num / den`, or to its negation. -/
def ofRatio (negative : Bool) (num den : Nat) : Double :=
  let magnitude := nearestBits num den
  ⟨UInt64.ofNat (if negative then signBit + magnitude else magnitude)⟩

/-- The double nearest to a decimal, or to its negation. -/
def ofDecimal (negative : Bool) (x : Decimal) : Double :=
  ofRatio negative (x.significand * tenTo x.exponent.toNat) (tenTo (-x.exponent).toNat)

end Double

end Reckon
