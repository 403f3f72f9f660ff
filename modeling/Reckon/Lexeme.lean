import Reckon.Text.Classes
import Reckon.Token

/-! # Lexemes of a line

A line is cut from left to right into the longest lexemes: a word is a run of ASCII letters and
digits that starts with a letter, a number is a run of decimal digits with at most one point,
which may stand first if a digit follows, and any other character that is not white space is a
lexeme of its own. Decimal digits of every script belong to a number, but only a number of ASCII
digits has a value; `Lexeme.token` refuses the others.
-/

namespace Reckon

/-- A piece of a line that makes one token. -/
inductive Lexeme where
  /-- Letters and digits, a letter first. -/
  | word (text : List Char)
  /-- Digits with at most one point. -/
  | number (text : List Char)
  /-- A single character. -/
  | mark (c : Char)
  deriving DecidableEq, Repr

namespace Lexeme

/-- Cuts the longest number off: digits, then a point and digits if a point is next. -/
def cutNumber (text : List Char) : List Char × List Char :=
  let whole := text.takeWhile isDecimalDigit
  match text.dropWhile isDecimalDigit with
  | '.' :: rest =>
    (whole ++ '.' :: rest.takeWhile isDecimalDigit, rest.dropWhile isDecimalDigit)
  | rest => (whole, rest)

/-- A number starts here: at a digit, or at a point that a digit follows. -/
def startsNumber (c : Char) (rest : List Char) : Bool :=
  isDecimalDigit c || (c == '.' && rest.head?.any isDecimalDigit)

/-- Cuts the first lexeme off, or one character of white space. -/
def cut (c : Char) (rest : List Char) : Option Lexeme × List Char :=
  if isAsciiLetter c then
    (some (word (c :: rest.takeWhile isAsciiAlphanumeric)), rest.dropWhile isAsciiAlphanumeric)
  else if startsNumber c rest then
    let (text, rest) := cutNumber (c :: rest)
    (some (number text), rest)
  else if isWhite c then (none, rest)
  else (some (mark c), rest)

theorem length_dropWhile_le (p : Char → Bool) (text : List Char) :
    (text.dropWhile p).length ≤ text.length :=
  (List.dropWhile_suffix p).length_le

theorem length_cutNumber_le {c : Char} {rest : List Char} (h : startsNumber c rest = true) :
    (cutNumber (c :: rest)).2.length ≤ rest.length := by
  have hdrop := length_dropWhile_le isDecimalDigit rest
  by_cases hc : isDecimalDigit c = true
  · simp only [cutNumber, List.dropWhile_cons, hc, if_true]
    split
    · next tail htail =>
      have := length_dropWhile_le isDecimalDigit tail
      rw [htail] at hdrop
      exact Nat.le_trans this (Nat.le_of_succ_le hdrop)
    · exact hdrop
  · obtain rfl : c = '.' := by
      simp only [startsNumber, Bool.or_eq_true, Bool.and_eq_true, beq_iff_eq] at h
      exact (h.resolve_left hc).1
    simpa [cutNumber, List.dropWhile_cons, hc] using hdrop

/-- A cut takes at least one character. -/
theorem length_cut_le (c : Char) (rest : List Char) : (cut c rest).2.length ≤ rest.length := by
  unfold cut
  split
  · exact length_dropWhile_le _ _
  · split
    · next h => exact length_cutNumber_le h
    · split <;> exact Nat.le_refl _

def ofText : List Char → List Lexeme
  | [] => []
  | c :: rest => (cut c rest).1.toList ++ ofText (cut c rest).2
termination_by text => text.length
decreasing_by exact Nat.lt_succ_of_le (length_cut_le c rest)

def digitsValue (digits : List Char) : Nat :=
  digits.foldl (fun value c => 10 * value + (c.toNat - 48)) 0

/-- The value of a number's text, when all its digits are ASCII: its digits without the point,
    scaled down by as many places as follow the point, and rounded to the nearest double. -/
def value? (text : List Char) : Option Double :=
  if text.all fun c => isAsciiDigit c || c == '.' then
    let places := (text.dropWhile (· != '.')).length - 1
    some (Double.ofDecimal false ⟨digitsValue (text.filter (· != '.')), -places⟩)
  else none

/-- The token that a lexeme makes, or the text of a number without a value. -/
def token : Lexeme → Except String Token
  | word text => .ok (Token.ofWord (String.ofList text))
  | number text =>
    match value? text with
    | some value => .ok (.number value)
    | none => .error (String.ofList text)
  | mark c => .ok (.char c)

end Lexeme

end Reckon
