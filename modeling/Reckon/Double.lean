/-! # Double-precision numbers

A number of the language is a `Double`: the 64 bits of an IEEE-754 binary64 value, compared by
their bits, so that the two zeros differ and a value that is not a number equals itself.
Arithmetic is the machine's. The functions on bits read the three fields of the format; for a
finite value, `Double.units` is its magnitude as a whole number of units of `2 ^ -1074`, the
smallest positive double, and every exact computation on numbers and digits starts from there.
-/

namespace Reckon

/-- A binary64 number, given by its bits. -/
structure Double where
  /-- Sign, eleven exponent bits and fifty-two fraction bits, from the highest. -/
  bits : UInt64
  deriving DecidableEq, Repr, Inhabited

namespace Double

/-- The machine's number with these bits. -/
def toFloat (d : Double) : Float := Float.ofBits d.bits

/-- The bits of a machine number. -/
def ofFloat (x : Float) : Double := ⟨x.toBits⟩

def signBit : Nat := 0x8000000000000000

/-- The bit above the fraction, which counts `2 ^ 52` and is left out of the format. -/
def hiddenBit : Nat := 0x10000000000000

/-- One, in units of `2 ^ -1074`. -/
def unitsOfOne : Nat := Nat.pow 2 1074

def isNegative (d : Double) : Bool := signBit ≤ d.bits.toNat

/-- The biased exponent, below 2048. -/
def exponent (d : Double) : Nat := d.bits.toNat / hiddenBit % 2048

/-- The fraction bits, below the hidden bit. -/
def fraction (d : Double) : Nat := d.bits.toNat % hiddenBit

/-- Neither infinite nor a NaN. -/
def isFinite (d : Double) : Bool := d.exponent ≠ 2047

/-- Not a number: the highest exponent with a fraction. -/
def isNaN (d : Double) : Bool := d.exponent = 2047 && d.fraction ≠ 0

/-- The magnitude of a finite number, in units of `2 ^ -1074`. A subnormal counts its fraction;
    any other number has a hidden bit above the fraction and is scaled by its exponent. -/
def units (d : Double) : Nat :=
  if d.exponent = 0 then d.fraction else (hiddenBit + d.fraction) * Nat.pow 2 (d.exponent - 1)

def zero : Double := ⟨0⟩

def one : Double := ⟨0x3FF0000000000000⟩

/-- The bits of positive infinity, the least that no finite magnitude has. -/
def infinityBits : Nat := 0x7FF0000000000000

/-- The machine's operation on two numbers. -/
def lift₂ (op : Float → Float → Float) (a b : Double) : Double :=
  ofFloat (op a.toFloat b.toFloat)

/-- The machine's operation on one number. -/
def lift₁ (op : Float → Float) (a : Double) : Double := ofFloat (op a.toFloat)

instance : Add Double := ⟨lift₂ (· + ·)⟩
instance : Sub Double := ⟨lift₂ (· - ·)⟩
instance : Mul Double := ⟨lift₂ (· * ·)⟩

/-- Less, or unordered because one of the two is a NaN. -/
def lessOrUnordered (a b : Double) : Bool :=
  decide (a.toFloat < b.toFloat) || a.isNaN || b.isNaN

/-- One for true and zero for false. -/
def ofBool (b : Bool) : Double := if b then one else zero

def sin : Double → Double := lift₁ Float.sin
def cos : Double → Double := lift₁ Float.cos
def tan : Double → Double := lift₁ Float.tan
def sqrt : Double → Double := lift₁ Float.sqrt
def exp : Double → Double := lift₁ Float.exp
def log : Double → Double := lift₁ Float.log
def abs : Double → Double := lift₁ Float.abs
def floor : Double → Double := lift₁ Float.floor
def ceil : Double → Double := lift₁ Float.ceil
def pow : Double → Double → Double := lift₂ Float.pow

end Double

end Reckon
