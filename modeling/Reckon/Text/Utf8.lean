/-! # Text from bytes

Source bytes are read as UTF-8. Bytes that are not UTF-8 never stop the reader: each maximal run
that starts like a character but does not complete one, and each byte that starts none, becomes
one replacement character. The decoder goes byte by byte; between two bytes it knows which
character it is inside and which bytes can go on with it.
-/

namespace Reckon.Utf8

/-- What stands for bytes that are no character. -/
def replacement : Char := '\uFFFD'

/-- Inside a character of several bytes. -/
structure Pending where
  /-- The code point as far as it is read. -/
  code : Nat
  /-- How many bytes are still owed, at least one. -/
  owed : Nat
  /-- The least byte that can come next. -/
  low : Nat
  /-- The greatest byte that can come next. -/
  high : Nat
  deriving DecidableEq, Repr

/-- A first byte: the text it gives at once, and the character it opens. The bounds on the second
    byte leave out overlong forms, surrogates and code points above the last. -/
def start (byte : Nat) : List Char × Option Pending :=
  if byte < 0x80 then ([Char.ofNat byte], none)
  else if byte < 0xC2 then ([replacement], none)
  else if byte < 0xE0 then ([], some ⟨byte - 0xC0, 1, 0x80, 0xBF⟩)
  else if byte = 0xE0 then ([], some ⟨0, 2, 0xA0, 0xBF⟩)
  else if byte = 0xED then ([], some ⟨0xD, 2, 0x80, 0x9F⟩)
  else if byte < 0xF0 then ([], some ⟨byte - 0xE0, 2, 0x80, 0xBF⟩)
  else if byte = 0xF0 then ([], some ⟨0, 3, 0x90, 0xBF⟩)
  else if byte < 0xF4 then ([], some ⟨byte - 0xF0, 3, 0x80, 0xBF⟩)
  else if byte = 0xF4 then ([], some ⟨4, 3, 0x80, 0x8F⟩)
  else ([replacement], none)

/-- One byte: the text it gives and where the decoder then stands. A byte that cannot go on with
    the pending character ends it as a replacement character and is read again as a first byte. -/
def step : Option Pending → Nat → List Char × Option Pending
  | none, byte => start byte
  | some p, byte =>
    if p.low ≤ byte ∧ byte ≤ p.high then
      let code := p.code * 64 + byte % 64
      if p.owed = 1 then ([Char.ofNat code], none) else ([], some ⟨code, p.owed - 1, 0x80, 0xBF⟩)
    else
      let (text, next) := start byte
      (replacement :: text, next)

/-- The text of the bytes from a state of the decoder on. A character that the end cuts off is a
    replacement character. -/
def decodeFrom : Option Pending → List UInt8 → List Char
  | none, [] => []
  | some _, [] => [replacement]
  | state, byte :: rest =>
    let (text, next) := step state byte.toNat
    text ++ decodeFrom next rest

def decode (bytes : List UInt8) : List Char := decodeFrom none bytes

end Reckon.Utf8
