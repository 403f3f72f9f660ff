import Reckon.Text.Classes

/-! # Characters and their classes

What tells two characters apart is most often a class that only one of them belongs to. White space
belongs to no class of characters that lexemes are made of, and what holds of the few characters of
a word can be checked one by one.
-/

namespace Reckon

section Classes

variable {c d w : Char}

theorem ne_of_class {p : Char → Bool} (holds : p c = true) (fails : p d = false) : c ≠ d := by
  rintro rfl
  rw [holds] at fails
  contradiction

theorem not_mem_of_class {p : Char → Bool} {text : List Char} (all : ∀ c ∈ text, p c = true)
    (fails : p d = false) : d ∉ text := fun mem => ne_of_class (all d mem) fails rfl

/-- White space is part of no lexeme. -/
theorem isDecimalDigit_of_isWhite (white : isWhite w = true) : isDecimalDigit w = false := by
  have noWhite : ∀ first ∈ decimalZeros, ∀ k < 10, isWhite (Char.ofNat (first + k)) = false := by
    decide +kernel
  rw [← Bool.not_eq_true]
  intro digit
  obtain ⟨first, isZero, least, most⟩ : ∃ first ∈ decimalZeros, first ≤ w.toNat ∧
      w.toNat < first + 10 := by
    simpa [isDecimalDigit] using digit
  have other := noWhite first isZero (w.toNat - first) (by omega)
  rw [Nat.add_sub_cancel' least, Char.ofNat_toNat] at other
  exact ne_of_class white other rfl

/-- What holds of the ASCII letters and digits can be checked one by one. -/
theorem of_isAsciiAlphanumeric {P : Char → Prop}
    (all : ∀ n < 128, isAsciiAlphanumeric (Char.ofNat n) = true → P (Char.ofNat n))
    (alphanumeric : isAsciiAlphanumeric c = true) : P c := by
  have small : c.toNat < 128 := by
    have last : 'Z'.val.toNat = 90 ∧ 'z'.val.toNat = 122 ∧ '9'.val.toNat = 57 := by decide
    simp only [isAsciiAlphanumeric, isAsciiLetter, isAsciiDigit, Bool.or_eq_true,
      Bool.and_eq_true, decide_eq_true_eq, Char.le_def, UInt32.le_iff_toNat_le] at alphanumeric
    change c.val.toNat < 128
    omega
  have here := all c.toNat small
  rw [Char.ofNat_toNat] at here
  exact here alphanumeric

theorem isAsciiAlphanumeric_of_isWhite (white : isWhite w = true) :
    isAsciiAlphanumeric w = false := by
  rw [← Bool.not_eq_true]
  intro alphanumeric
  have noWhite : isWhite w = false :=
    of_isAsciiAlphanumeric (P := fun c => isWhite c = false) (by decide) alphanumeric
  exact ne_of_class white noWhite rfl

theorem isAsciiLetter_of_isWhite (white : isWhite w = true) : isAsciiLetter w = false :=
  (Bool.or_eq_false_iff.mp (isAsciiAlphanumeric_of_isWhite white)).1

theorem isDecimalDigit_of_isAsciiDigit (digit : isAsciiDigit c = true) :
    isDecimalDigit c = true ∧ isAsciiLetter c = false := by
  have alphanumeric : isAsciiAlphanumeric c = true := by simp [isAsciiAlphanumeric, digit]
  refine of_isAsciiAlphanumeric (P := fun c => isAsciiDigit c = true →
    isDecimalDigit c = true ∧ isAsciiLetter c = false) ?_ alphanumeric digit
  decide

end Classes

end Reckon
