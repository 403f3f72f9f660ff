import Reckon.Double.Digits

/-! # The texts of a double

Three notations. `Double.plain` stands in messages: the shortest digits, never an exponent, and no
point in a whole number. `Double.constant` stands in printed functions: seven digits with an
exponent where these read back to the same bits, and else the bits in hexadecimal, so that no two
doubles share a text. `Double.literal` stands in the reasons of the verifier: the shortest digits
with a point or an exponent, so that it is never mistaken for a whole number.
-/

namespace Reckon

def zeros (count : Nat) : String := String.ofList (List.replicate count '0')

/-- The digits of a number, with zeros in front up to the width. -/
def padded (width n : Nat) : String :=
  let digits := Nat.toDigits 10 n
  zeros (width - digits.length) ++ String.ofList digits

namespace Decimal

/-- The digits written around the decimal point, without an exponent; a number below one has a
    zero before its point. -/
def positional (x : Decimal) : String :=
  let digits := Nat.toDigits 10 x.significand
  if 0 ≤ x.exponent then String.ofList digits ++ zeros x.exponent.toNat
  else
    let places := (-x.exponent).toNat
    if places < digits.length then
      String.ofList (digits.take (digits.length - places)) ++ "." ++
        String.ofList (digits.drop (digits.length - places))
    else "0." ++ zeros (places - digits.length) ++ String.ofList digits

def leadingExponent (x : Decimal) : Int := x.exponent + digitCount x.significand - 1

/-- The digits with a point after the first one, and no point after a lone digit. -/
def leadingPoint (x : Decimal) : String :=
  match Nat.toDigits 10 x.significand with
  | [] => ""
  | [digit] => digit.toString
  | digit :: more => digit.toString ++ "." ++ String.ofList more

end Decimal

namespace Double

/-- The sign in front of a text. -/
def signed (d : Double) (magnitude : String) : String :=
  if d.isNegative then "-" ++ magnitude else magnitude

/-- The text of a double whose finite nonzero magnitudes are written by `write`. -/
def textBy (zero : String) (write : Decimal → String) (d : Double) : String :=
  if d.isNaN then "NaN"
  else if !d.isFinite then d.signed "inf"
  else if d.units = 0 then d.signed zero
  else d.signed (write d.shortest)

/-- The text in messages: shortest digits, positional at any magnitude. -/
def plain (d : Double) : String := d.textBy "0" Decimal.positional

/-- The text in the verifier's reasons. An exponent is written from `10 ^ 16` up and below
    `10 ^ -4`. -/
def literal (d : Double) : String :=
  d.textBy "0.0" fun x =>
    let exponent := x.leadingExponent
    if exponent < -4 || 16 ≤ exponent then x.leadingPoint ++ "e" ++ toString exponent
    else if 0 ≤ x.exponent then x.positional ++ ".0"
    else x.positional

/-- The seven-digit text of a finite double, as a decimal: zero has seven zeros. -/
def sevenDigits (d : Double) : Decimal := if d.units = 0 then ⟨0, 0⟩ else d.rounded 7

/-- One digit, a point, six digits, and an exponent with a sign and at least two digits. -/
def scientific (x : Decimal) : String :=
  let exponent := if x.significand = 0 then 0 else x.leadingExponent
  let digits := padded 7 x.significand
  String.ofList (digits.toList.take 1) ++ "." ++ String.ofList (digits.toList.drop 1) ++ "e" ++
    (if exponent < 0 then "-" else "+") ++ padded 2 exponent.natAbs

def hexDigit (n : Nat) : Char := if n < 10 then Char.ofNat (48 + n) else Char.ofNat (55 + n)

def hexadecimal (d : Double) : String :=
  String.ofList ((List.range 16).map fun i => hexDigit (d.bits.toNat / Nat.pow 16 (15 - i) % 16))

/-- The text in printed functions. -/
def constant (d : Double) : String :=
  if d.isFinite && d.readsFrom d.sevenDigits then d.signed (scientific d.sevenDigits)
  else "0x" ++ d.hexadecimal

end Double

end Reckon
