import Mathlib.Data.Nat.Digits.Defs
import Reckon.Double.Text
import Reckon.Proofs.Text.Classes
import Reckon.Proofs.Text.Splitting

/-! # Constants lose nothing

The text of a double in printed functions determines its bits, whichever of the two notations it is
in: they differ in their second character, the sixteen digits of the one are the bits, and what the
other one writes reads back as the double that it was written for.
-/

namespace Reckon

theorem isAsciiDigit_of_mem_toDigits {n : Nat} {c : Char} (mem : c ∈ Nat.toDigits 10 n) :
    isAsciiDigit c = true := by
  have digit := Nat.isDigit_of_mem_toDigits (by decide) (by decide) mem
  simpa [Char.isDigit, isAsciiDigit, Char.le_def] using digit

theorem toDigits_inj {m n : Nat} (same : Nat.toDigits 10 m = Nat.toDigits 10 n) : m = n := by
  have value := congrArg (Nat.ofDigitChars 10 · 0) same
  simpa only [Nat.ofDigitChars_ten_toDigits] using value

theorem toList_padded (width n : Nat) : (padded width n).toList =
    List.replicate (width - (Nat.toDigits 10 n).length) '0' ++ Nat.toDigits 10 n := by
  simp [padded, zeros]

theorem isAsciiDigit_of_mem_padded {width n : Nat} {c : Char} (mem : c ∈ (padded width n).toList) :
    isAsciiDigit c = true := by
  rw [toList_padded, List.mem_append] at mem
  rcases mem with mem | mem
  · rw [List.eq_of_mem_replicate mem]
    decide
  · exact isAsciiDigit_of_mem_toDigits mem

theorem padded_inj {width m n : Nat} (same : (padded width m).toList = (padded width n).toList) :
    m = n := by
  have value := congrArg (Nat.ofDigitChars 10 · 0) same
  simpa only [toList_padded, Nat.ofDigitChars_append, Nat.ofDigitChars_replicate_zero,
    Nat.mul_zero, Nat.ofDigitChars_ten_toDigits] using value

namespace Decimal

/-- The exponent in the scientific notation; zero has none of its own. -/
def writtenExponent (x : Decimal) : Int := if x.significand = 0 then 0 else x.leadingExponent

theorem toList_scientific (x : Decimal) : (Double.scientific x).toList =
    (padded 7 x.significand).toList.take 1 ++ '.' :: ((padded 7 x.significand).toList.drop 1 ++
      'e' :: (if x.writtenExponent < 0 then '-' else '+') ::
        (padded 2 x.writtenExponent.natAbs).toList) := by
  have written : Double.scientific x = String.ofList ((padded 7 x.significand).toList.take 1) ++
      "." ++ String.ofList ((padded 7 x.significand).toList.drop 1) ++ "e" ++
      (if x.writtenExponent < 0 then "-" else "+") ++ padded 2 x.writtenExponent.natAbs := rfl
  rw [written]
  by_cases negative : x.writtenExponent < 0
  · simp [negative]
  · simp [negative]

/-- The notation tells the significand, and if that is not zero, the exponent too. -/
theorem scientific_inj {x y : Decimal} (same : Double.scientific x = Double.scientific y) :
    x.significand = y.significand ∧ (x.significand ≠ 0 → x = y) := by
  have texts := congrArg String.toList same
  have noPoint : ∀ n, '.' ∉ (padded 7 n).toList.take 1 := fun n =>
    not_mem_of_class (fun c mem => isAsciiDigit_of_mem_padded (List.mem_of_mem_take mem)) rfl
  have noLetter : ∀ n, 'e' ∉ (padded 7 n).toList.drop 1 := fun n =>
    not_mem_of_class (fun c mem => isAsciiDigit_of_mem_padded (List.mem_of_mem_drop mem)) rfl
  rw [toList_scientific, toList_scientific] at texts
  obtain ⟨first, texts⟩ := eq_of_append_stop (noPoint _) (noPoint _) texts
  obtain ⟨others, texts⟩ := eq_of_append_stop (noLetter _) (noLetter _) texts
  obtain ⟨sign, magnitude⟩ := List.cons_eq_cons.mp texts
  have digits : (padded 7 x.significand).toList = (padded 7 y.significand).toList := by
    rw [← List.take_append_drop 1 (padded 7 x.significand).toList, first, others,
      List.take_append_drop]
  have significand := padded_inj digits
  have exponent : x.writtenExponent = y.writtenExponent := by
    have natAbs := padded_inj magnitude
    have sameSign : x.writtenExponent < 0 ↔ y.writtenExponent < 0 := by
      by_cases negative : x.writtenExponent < 0
      · by_cases negative' : y.writtenExponent < 0
        · exact iff_of_true negative negative'
        · simp only [if_pos negative, if_neg negative'] at sign
          cases sign
      · by_cases negative' : y.writtenExponent < 0
        · simp only [if_neg negative, if_pos negative'] at sign
          cases sign
        · exact iff_of_false negative negative'
    omega
  refine ⟨significand, fun notZero => ?_⟩
  simp only [writtenExponent, ← significand, if_neg notZero, leadingExponent] at exponent
  cases x
  cases y
  simp only [Decimal.mk.injEq]
  exact ⟨significand, by simp only at *; omega⟩

end Decimal

namespace Double

/-- Without a significand the exponent does not matter. -/
theorem ofDecimal_zero {negative : Bool} {x y : Decimal} (zero : x.significand = 0)
    (zero' : y.significand = 0) : ofDecimal negative x = ofDecimal negative y := by
  have bits : ∀ den, nearestBits 0 den = 0 := by
    intro den
    simp [nearestBits, roundHalfEven, hiddenBit, infinityBits]
  simp only [ofDecimal, ofRatio, zero, zero', Nat.zero_mul, bits]

theorem hexDigit_inj {m n : Nat} (hm : m < 16) (hn : n < 16) (same : hexDigit m = hexDigit n) :
    m = n := by
  have all : ∀ m < 16, ∀ n < 16, hexDigit m = hexDigit n → m = n := by decide
  exact all m hm n hn same

/-- A number is known from its digits. -/
theorem mod_pow_eq_of_digits {b m n : Nat} (k : Nat)
    (same : ∀ i < k, m / b ^ i % b = n / b ^ i % b) : m % b ^ k = n % b ^ k := by
  induction k with
  | zero => simp only [Nat.pow_zero, Nat.mod_one]
  | succ k ih =>
      have lower := ih fun i small => same i (Nat.lt_succ_of_lt small)
      rw [Nat.mod_pow_succ, Nat.mod_pow_succ, lower, same k (Nat.lt_succ_self k)]

/-- Sixteen digits make up the bits. -/
theorem hexadecimal_inj {d d' : Double} (same : d.hexadecimal = d'.hexadecimal) : d = d' := by
  have digits := String.ofList_injective same
  have place : ∀ i < 16, d.bits.toNat / 16 ^ i % 16 = d'.bits.toNat / 16 ^ i % 16 := by
    intro i small
    have here := List.map_inj_left.mp digits (15 - i) (List.mem_range.mpr (by omega))
    have position : 15 - (15 - i) = i := by omega
    rw [position] at here
    exact hexDigit_inj (Nat.mod_lt _ (by decide)) (Nat.mod_lt _ (by decide)) here
  have bits := mod_pow_eq_of_digits 16 place
  have small : ∀ e : Double, e.bits.toNat < 16 ^ 16 := fun e => e.bits.toNat_lt
  rw [Nat.mod_eq_of_lt (small d), Nat.mod_eq_of_lt (small d')] at bits
  cases d
  cases d'
  exact congrArg Double.mk (UInt64.toNat_inj.mp bits)

def isConstantChar (c : Char) : Bool := isAsciiAlphanumeric c || c == '-' || c == '+' || c == '.'

theorem isConstantChar_of_isAsciiDigit {c : Char} (digit : isAsciiDigit c = true) :
    isConstantChar c = true := by
  simp [isConstantChar, isAsciiAlphanumeric, digit]

/-- A constant has one of the two notations. -/
theorem constant_cases (d : Double) :
    (∃ x : Decimal, ofDecimal d.isNegative x = d ∧ d.constant = d.signed (scientific x)) ∨
      d.constant = "0x" ++ d.hexadecimal := by
  unfold constant
  split
  · next reads =>
    simp only [Bool.and_eq_true, readsFrom, beq_iff_eq] at reads
    exact .inl ⟨_, reads.2, rfl⟩
  · exact .inr rfl

theorem isConstantChar_of_mem {d : Double} {c : Char} (mem : c ∈ d.constant.toList) :
    isConstantChar c = true := by
  rcases d.constant_cases with ⟨x, -, isDecimal⟩ | isHexadecimal
  · have inDecimal : c ∈ (scientific x).toList → isConstantChar c = true := by
      intro mem
      simp only [Decimal.toList_scientific, List.mem_append, List.mem_cons] at mem
      rcases mem with mem | rfl | mem | rfl | rfl | mem
      · exact isConstantChar_of_isAsciiDigit (isAsciiDigit_of_mem_padded (List.mem_of_mem_take mem))
      · rfl
      · exact isConstantChar_of_isAsciiDigit (isAsciiDigit_of_mem_padded (List.mem_of_mem_drop mem))
      · rfl
      · split <;> rfl
      · exact isConstantChar_of_isAsciiDigit (isAsciiDigit_of_mem_padded mem)
    rw [isDecimal, signed] at mem
    split at mem
    · rw [String.toList_append, List.mem_append] at mem
      rcases mem with mem | mem
      · rw [List.mem_singleton.mp mem]
        rfl
      · exact inDecimal mem
    · exact inDecimal mem
  · have digit : ∀ n < 16, isConstantChar (hexDigit n) = true := by decide
    rw [isHexadecimal, String.toList_append, List.mem_append] at mem
    rcases mem with mem | mem
    · have mark : "0x".toList.all isConstantChar = true := by decide
      exact List.all_eq_true.mp mark c mem
    · rw [hexadecimal, String.toList_ofList] at mem
      obtain ⟨i, -, rfl⟩ := List.mem_map.mp mem
      exact digit _ (Nat.mod_lt _ (by decide))

theorem scientific_starts (x : Decimal) : ∃ c rest, isAsciiDigit c = true ∧
    (scientific x).toList = c :: '.' :: rest := by
  rw [Decimal.toList_scientific]
  cases digits : (padded 7 x.significand).toList with
  | nil =>
      rw [toList_padded, List.append_eq_nil_iff] at digits
      exact absurd digits.2 Nat.toDigits_ne_nil
  | cons c more =>
      have digit : isAsciiDigit c = true :=
        isAsciiDigit_of_mem_padded (digits ▸ List.mem_cons_self)
      exact ⟨c, _, digit, by rw [List.take_succ_cons, List.take_zero, List.singleton_append]⟩

theorem toList_signed (d : Double) (magnitude : String) : (d.signed magnitude).toList =
    if d.isNegative then '-' :: magnitude.toList else magnitude.toList := by
  unfold signed
  split <;> simp

theorem signed_inj {d d' : Double} {x x' : Decimal}
    (same : d.signed (scientific x) = d'.signed (scientific x')) :
    d.isNegative = d'.isNegative ∧ scientific x = scientific x' := by
  have texts := congrArg String.toList same
  have noSign : ∀ (x : Decimal) (text : List Char), (scientific x).toList ≠ '-' :: text := by
    intro x text isSign
    obtain ⟨c, rest, digit, starts⟩ := scientific_starts x
    rw [starts] at isSign
    exact ne_of_class digit rfl (List.head_eq_of_cons_eq isSign)
  rw [toList_signed, toList_signed] at texts
  cases negative : d.isNegative with
  | true =>
      cases negative' : d'.isNegative with
      | true =>
          simp only [negative, negative', if_true] at texts
          exact ⟨rfl, String.toList_injective (List.tail_eq_of_cons_eq texts)⟩
      | false =>
          simp only [negative, negative', if_true, Bool.false_eq_true, if_false] at texts
          exact absurd texts.symm (noSign x' _)
  | false =>
      cases negative' : d'.isNegative with
      | true =>
          simp only [negative, negative', if_true, Bool.false_eq_true, if_false] at texts
          exact absurd texts (noSign x _)
      | false =>
          simp only [negative, negative', Bool.false_eq_true, if_false] at texts
          exact ⟨rfl, String.toList_injective texts⟩

/-- The two notations can be told apart. -/
theorem signed_ne_hexadecimal (d d' : Double) (x : Decimal) :
    d.signed (scientific x) ≠ "0x" ++ d'.hexadecimal := by
  intro same
  have texts := congrArg String.toList same
  obtain ⟨c, rest, digit, starts⟩ := scientific_starts x
  rw [toList_signed, String.toList_append, starts] at texts
  split at texts
  · exact absurd (List.head_eq_of_cons_eq texts) (by decide)
  · exact absurd (List.head_eq_of_cons_eq (List.tail_eq_of_cons_eq texts)) (by decide)

theorem constant_inj {d d' : Double} (same : d.constant = d'.constant) : d = d' := by
  rcases d.constant_cases with ⟨x, reads, text⟩ | text <;>
    rcases d'.constant_cases with ⟨x', reads', text'⟩ | text' <;> rw [text, text'] at same
  · obtain ⟨sign, sameDecimal⟩ := signed_inj same
    obtain ⟨significand, sameIfSome⟩ := Decimal.scientific_inj sameDecimal
    rw [← reads, ← reads', sign]
    by_cases zero : x.significand = 0
    · exact ofDecimal_zero zero (significand ▸ zero)
    · rw [sameIfSome zero]
  · exact absurd same (signed_ne_hexadecimal d d' x)
  · exact absurd same.symm (signed_ne_hexadecimal d' d x')
  · have texts := congrArg String.toList same
    rw [String.toList_append, String.toList_append] at texts
    exact hexadecimal_inj (String.toList_injective (List.append_cancel_left texts))

end Double

end Reckon
