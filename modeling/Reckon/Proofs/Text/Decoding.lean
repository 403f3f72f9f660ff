import Reckon.Proofs.Double.Digits
import Reckon.Proofs.Text.Constants

/-! # What a constant stands for

Who reads a printed function takes a constant that starts with `0x` as the bits of a double, and any
other one as a decimal, which stands for the double nearest to it. Read like this, every constant
stands for the double that it was written for, and for no other.
-/

namespace Reckon

def digits? (text : List Char) : Option Nat :=
  if text ≠ [] ∧ text.all isAsciiDigit then some (Nat.ofDigitChars 10 text 0) else none

def hexValue? (c : Char) : Option Nat :=
  if isAsciiDigit c then some (c.toNat - 48)
  else if 'A' ≤ c ∧ c ≤ 'F' then some (c.toNat - 55) else none

/-- The number that hexadecimal digits make up. -/
def hexadecimal? (text : List Char) : Option Nat :=
  text.foldlM (fun value c => (hexValue? c).map (16 * value + ·)) 0

theorem digits?_padded (width n : Nat) : digits? (padded width n).toList = some n := by
  have digits : (padded width n).toList.all isAsciiDigit = true :=
    List.all_eq_true.mpr fun _ mem => isAsciiDigit_of_mem_padded mem
  have some : (padded width n).toList ≠ [] := by
    rw [toList_padded]
    exact List.append_ne_nil_of_right_ne_nil _ Nat.toDigits_ne_nil
  rw [digits?, if_pos ⟨some, digits⟩, toList_padded, Nat.ofDigitChars_append,
    Nat.ofDigitChars_replicate_zero, Nat.mul_zero, Nat.ofDigitChars_ten_toDigits]

theorem hexValue?_hexDigit {n : Nat} (small : n < 16) : hexValue? (Double.hexDigit n) = some n := by
  have all : ∀ n < 16, hexValue? (Double.hexDigit n) = some n := by decide
  exact all n small

/-- So many digits of a number make up what they show of it. -/
theorem hexadecimal?_digits (count n : Nat) :
    hexadecimal? ((List.range count).map fun i =>
      Double.hexDigit (n / 16 ^ (count - 1 - i) % 16)) = some (n % 16 ^ count) := by
  induction count generalizing n with
  | zero => simp [hexadecimal?, Nat.mod_one]
  | succ count ih =>
      have higher : (List.range count).map (fun i =>
          Double.hexDigit (n / 16 ^ (count + 1 - 1 - i) % 16)) =
          (List.range count).map fun i => Double.hexDigit (n / 16 / 16 ^ (count - 1 - i) % 16) := by
        refine List.map_congr_left fun i mem => ?_
        have place : count + 1 - 1 - i = count - 1 - i + 1 := by
          have := List.mem_range.mp mem
          omega
        rw [place, Nat.pow_succ', Nat.div_div_eq_div_mul]
      have digit : hexValue? (Double.hexDigit (n % 16)) = some (n % 16) :=
        hexValue?_hexDigit (Nat.mod_lt _ (by decide))
      have front := ih (n / 16)
      unfold hexadecimal? at front ⊢
      rw [List.range_succ, List.map_append, List.foldlM_append, higher, front]
      simp [digit, Nat.pow_succ', Nat.mod_mul, Nat.add_comm]

theorem Double.hexadecimal?_hexadecimal (d : Double) :
    hexadecimal? d.hexadecimal.toList = some d.bits.toNat := by
  have small : d.bits.toNat < 16 ^ 16 := d.bits.toNat_lt
  have digits := hexadecimal?_digits 16 d.bits.toNat
  rw [Nat.mod_eq_of_lt small] at digits
  rw [Double.hexadecimal, String.toList_ofList]
  exact digits

/-- The sign in front of a text, whether it is a minus, and what is behind it. -/
def cutSign : List Char → Bool × List Char
  | '-' :: text => (true, text)
  | '+' :: text => (false, text)
  | text => (false, text)

/-- What comes before a mark and what comes behind it. -/
def cutAt (mark : Char) (text : List Char) : List Char × List Char :=
  (text.takeWhile (· ≠ mark), (text.dropWhile (· ≠ mark)).tail)

/-- Digits around a point, and behind an `e` an exponent with its sign. -/
def unsigned? (text : List Char) : Option Decimal := do
  let (mantissa, exponent) := cutAt 'e' text
  let (whole, places) := cutAt '.' mantissa
  let (down, exponent) := cutSign exponent
  let significand ← digits? (whole ++ places)
  let size ← digits? exponent
  return ⟨significand, (if down then -(size : Int) else size) - places.length⟩

/-- A decimal with its sign. -/
def decimal? (text : List Char) : Option (Bool × Decimal) :=
  (unsigned? (cutSign text).2).map ((cutSign text).1, ·)

theorem cutSign_of_digit {c : Char} (digit : isAsciiDigit c = true) (text : List Char) :
    cutSign (c :: text) = (false, c :: text) := by
  unfold cutSign
  split
  · next same => exact absurd digit (by cases same; decide)
  · next same => exact absurd digit (by cases same; decide)
  · rfl

theorem cutAt_append {mark : Char} {before : List Char} (first : mark ∉ before)
    (behind : List Char) : cutAt mark (before ++ mark :: behind) = (before, behind) := by
  have passes : ∀ c ∈ before, decide (c ≠ mark) = true := by
    intro c mem
    exact decide_eq_true (fun same => first (same ▸ mem))
  rw [cutAt, List.takeWhile_append_of_pos passes, List.dropWhile_append_of_pos passes]
  simp

/-- A decimal is read digit by digit, and its point stands behind the first one. -/
theorem unsigned?_scientific (x : Decimal) : unsigned? (Double.scientific x).toList =
    some ⟨x.significand, x.writtenExponent - ((padded 7 x.significand).toList.drop 1).length⟩ := by
  have noPoint : '.' ∉ (padded 7 x.significand).toList.take 1 :=
    not_mem_of_class (fun c mem => isAsciiDigit_of_mem_padded (List.mem_of_mem_take mem)) rfl
  have noLetter : 'e' ∉ (padded 7 x.significand).toList.take 1 ++
      '.' :: (padded 7 x.significand).toList.drop 1 := by
    have noDigit : 'e' ∉ (padded 7 x.significand).toList :=
      not_mem_of_class (fun c mem => isAsciiDigit_of_mem_padded mem) rfl
    simp only [List.mem_append, List.mem_cons, not_or]
    exact ⟨fun mem => noDigit (List.mem_of_mem_take mem), by decide,
      fun mem => noDigit (List.mem_of_mem_drop mem)⟩
  have sign : cutSign ((if x.writtenExponent < 0 then '-' else '+') ::
      (padded 2 x.writtenExponent.natAbs).toList) =
      (decide (x.writtenExponent < 0), (padded 2 x.writtenExponent.natAbs).toList) := by
    split <;> simp [cutSign, *]
  have exponent : (if decide (x.writtenExponent < 0) then -(x.writtenExponent.natAbs : Int)
      else x.writtenExponent.natAbs) = x.writtenExponent := by
    split <;> simp only [decide_eq_true_eq] at * <;> omega
  rw [Decimal.toList_scientific, ← List.cons_append, ← List.append_assoc, unsigned?,
    cutAt_append noLetter]
  simp only [cutAt_append noPoint, sign, List.take_append_drop, digits?_padded, Option.bind_eq_bind,
    Option.bind_some, exponent]
  rfl

theorem decimal?_signed (d : Double) (x : Decimal) :
    decimal? (d.signed (Double.scientific x)).toList =
      (unsigned? (Double.scientific x).toList).map (d.isNegative, ·) := by
  obtain ⟨c, rest, digit, starts⟩ := Double.scientific_starts x
  rw [decimal?, Double.toList_signed, starts]
  cases d.isNegative with
  | true => rfl
  | false => simp only [Bool.false_eq_true, if_false, cutSign_of_digit digit]

/-- What is read is the number that was written, if that is zero or has seven digits. -/
theorem value_reread {x : Decimal} (full : x = ⟨0, 0⟩ ∨ 10 ^ 6 ≤ x.significand) :
    (⟨x.significand, x.writtenExponent - ((padded 7 x.significand).toList.drop 1).length⟩ :
      Decimal).value = x.value := by
  rcases full with rfl | large
  · simp [Decimal.value]
  · have digits : 6 < digitCount x.significand := lt_digitCount_of_pow_le large
    have notZero : x.significand ≠ 0 := by
      rintro zero
      rw [zero] at large
      exact absurd large (by decide)
    have places : ((padded 7 x.significand).toList.drop 1).length =
        digitCount x.significand - 1 := by
      have count : digitCount x.significand = (Nat.toDigits 10 x.significand).length := rfl
      rw [toList_padded, ← count]
      simp only [List.length_drop, List.length_append, List.length_replicate]
      omega
    have exponent : x.writtenExponent - (digitCount x.significand - 1 : Nat) = x.exponent := by
      rw [Decimal.writtenExponent, if_neg notZero, Decimal.leadingExponent]
      omega
    rw [places, exponent]

namespace Double

/-- The seven digits of a double are all there, unless it is zero. -/
theorem sevenDigits_full (d : Double) :
    d.sevenDigits = ⟨0, 0⟩ ∨ 10 ^ 6 ≤ d.sevenDigits.significand := by
  unfold sevenDigits
  split
  · exact .inl rfl
  · next notZero =>
    have some : 0 < 7 := by decide
    exact .inr (pow_le_rounded notZero some)

/-- Behind `0x` are the bits. Any other text is a decimal, and stands for the nearest double. -/
def Denotes (text : String) (d : Double) : Prop :=
  match text.toList with
  | '0' :: 'x' :: digits => hexadecimal? digits = some d.bits.toNat
  | decimal => ∃ negative x, decimal? decimal = some (negative, x) ∧ d.IsNearest negative x.value

theorem denotes_hexadecimal {d e : Double} : Denotes ("0x" ++ d.hexadecimal) e ↔ e = d := by
  have text : ("0x" ++ d.hexadecimal).toList = '0' :: 'x' :: d.hexadecimal.toList := by
    rw [String.toList_append]
    rfl
  rw [Denotes, text]
  simp only [hexadecimal?_hexadecimal, Option.some.injEq]
  constructor
  · intro bits
    cases d
    cases e
    exact congrArg Double.mk (UInt64.toNat_inj.mp bits.symm)
  · rintro rfl
    rfl

theorem denotes_scientific {d e : Double} {x : Decimal}
    (full : x = ⟨0, 0⟩ ∨ 10 ^ 6 ≤ x.significand) :
    Denotes (d.signed (scientific x)) e ↔ e = ofDecimal d.isNegative x := by
  have read := decimal?_signed d x
  rw [unsigned?_scientific, Option.map_some] at read
  unfold Denotes
  split
  · next digits marked =>
    obtain ⟨c, rest, -, starts⟩ := scientific_starts x
    rw [toList_signed, starts] at marked
    split at marked <;> simp at marked
  · simp only [read, Option.some.injEq, Prod.mk.injEq]
    rw [← isNearest_iff, ← value_reread full]
    constructor
    · rintro ⟨negative, y, ⟨rfl, rfl⟩, nearest⟩
      exact nearest
    · exact fun nearest => ⟨_, _, ⟨rfl, rfl⟩, nearest⟩

/-- The comparison of numbers, for which the two zeros are equal and no NaN equals itself. -/
def sameNumber (d e : Double) : Bool :=
  !d.isNaN && !e.isNaN && (d == e || (d.units == 0 && e.units == 0))

theorem eq_of_units_eq_zero {d e : Double} (sign : d.isNegative = e.isNegative)
    (zero : d.units = 0) (zero' : e.units = 0) : d = e := by
  rw [units_eq] at zero zero'
  exact ext_magnitude sign (unitsAt_strictMono.injective (zero.trans zero'.symm))

/-- To compare numbers instead of bits chooses the same notation. A zero is read with its sign. -/
theorem constant_eq_of_sameNumber (d : Double) : d.constant =
    if d.isFinite && sameNumber (ofDecimal d.isNegative d.sevenDigits) d
    then d.signed (scientific d.sevenDigits) else "0x" ++ d.hexadecimal := by
  have nearest := isNearest_iff.mpr (Eq.refl (ofDecimal d.isNegative d.sevenDigits))
  have reads : d.isFinite = true →
      d.readsFrom d.sevenDigits = sameNumber (ofDecimal d.isNegative d.sevenDigits) d := by
    intro finite
    have number : d.isNaN = false := by
      simp only [isFinite, decide_eq_true_eq] at finite
      simp [isNaN, finite]
    rw [Bool.eq_iff_iff]
    simp only [readsFrom, sameNumber, nearest.number, number, Bool.not_false, Bool.true_and,
      Bool.or_eq_true, Bool.and_eq_true, beq_iff_eq]
    refine ⟨.inl, fun same => same.elim id fun zeros => ?_⟩
    exact eq_of_units_eq_zero nearest.sign zeros.1 zeros.2
  unfold constant
  cases finite : d.isFinite with
  | false => rfl
  | true => rw [reads finite]

/-- Constants are exact. A constant stands for the double that it was written for and for no other,
    whatever its bits are. So no two doubles have the same constant. -/
theorem constant_exact (d : Double) :
    (∀ e, Denotes d.constant e ↔ e = d) ∧ ∀ e : Double, e.constant = d.constant → e = d := by
  refine ⟨fun e => ?_, fun e same => constant_inj same⟩
  unfold constant
  split
  · next reads =>
    simp only [Bool.and_eq_true, readsFrom, beq_iff_eq] at reads
    rw [denotes_scientific d.sevenDigits_full, reads.2]
  · exact denotes_hexadecimal

end Double

end Reckon
