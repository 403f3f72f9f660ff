import Reckon.Double.Rounding

/-! # Decimal digits of a double

Two ways from a finite double to a decimal. `Double.shortest` takes the fewest digits that read
back: for one digit, two digits and so on it looks at the two neighbours of the value among the
decimals with so many digits, and the first neighbour that rounds to the same double wins, the
nearer one if both do and the upper one if they are equally near. Seventeen digits are always
enough. `Double.rounded` takes a given number of digits, correctly rounded, a tie to even.
-/

namespace Reckon

def digitCount (n : Nat) : Nat := (Nat.toDigits 10 n).length

namespace Double

/-- The power of ten next above the magnitude `v` of a nonzero finite double: the `k` with
    `10 ^ (k - 1) ≤ v < 10 ^ k`. Below one it is found from the reciprocal. -/
def decade (d : Double) : Int :=
  if unitsOfOne ≤ d.units then digitCount (d.units / unitsOfOne)
  else 1 - digitCount ((unitsOfOne + d.units - 1) / d.units - 1)

/-- The magnitude as a quotient, counted in units of the last of `count` digits. -/
def inLastPlace (d : Double) (count : Nat) : Nat × Nat :=
  let exponent := d.decade - count
  (d.units * tenTo (-exponent).toNat, unitsOfOne * tenTo exponent.toNat)

/-- The decimal with a significand of `count` digits in the decade of this double. A significand
    that was rounded up into the next decade gives up its last digit, a zero. -/
def ofDigits (d : Double) (count significand : Nat) : Decimal :=
  let exponent := d.decade - count
  if significand < tenTo count then ⟨significand, exponent⟩ else ⟨tenTo (count - 1), exponent + 1⟩

/-- The decimal reads back as this double. -/
def readsFrom (d : Double) (x : Decimal) : Bool := ofDecimal d.isNegative x == d

/-- The neighbour with `count` digits that reads back as this double. -/
def neighbour? (d : Double) (count : Nat) : Option Decimal :=
  let (num, den) := d.inLastPlace count
  let lower := d.ofDigits count (num / den)
  let upper := d.ofDigits count (num / den + 1)
  match d.readsFrom lower, d.readsFrom upper with
  | true, true => some (if 2 * (num % den) < den then lower else upper)
  | true, false => some lower
  | false, true => some upper
  | false, false => none

/-- The fewest digits that read back as this finite nonzero double. -/
def shortest (d : Double) : Decimal :=
  ((List.range 17).findSome? fun n => d.neighbour? (n + 1)).getD ⟨d.units, -1074⟩

def rounded (d : Double) (count : Nat) : Decimal :=
  let (num, den) := d.inLastPlace count
  d.ofDigits count (roundHalfEven num den)

end Double

end Reckon
