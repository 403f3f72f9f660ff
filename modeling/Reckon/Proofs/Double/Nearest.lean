import Mathlib.Data.Rat.Cast.Order
import Mathlib.Order.Monotone.Basic
import Mathlib.Tactic.FieldSimp
import Mathlib.Tactic.Linarith
import Mathlib.Tactic.Positivity
import Mathlib.Tactic.Ring
import Reckon.Double.Rounding

/-! # The nearest double

What rounding is meant to do, said without a word about bits: of all doubles the nearest one, and
of two that are equally near the one with an even significand. Infinity takes part as the power of
two next above the greatest finite double. There is always one such double and only one, and
`Double.ofRatio` gives it.

Read as numbers, the bits of the doubles count their magnitudes upwards. So a double is the nearest
one as soon as its two neighbours are not nearer.
-/

namespace Reckon

/-- No whole number is nearer to `num / den` than `r`, and `r` is even if another is as near. -/
structure IsRounded (num den r : Nat) : Prop where
  above : 2 * num ≤ (2 * r + 1) * den
  below : 2 * r * den ≤ 2 * num + den
  even : 2 * num = (2 * r + 1) * den ∨ 2 * r * den = 2 * num + den → r % 2 = 0

theorem roundHalfEven_cases (num den : Nat) :
    (roundHalfEven num den = num / den ∧ 2 * (num % den) ≤ den ∨
      roundHalfEven num den = num / den + 1 ∧ den ≤ 2 * (num % den)) ∧
      (2 * (num % den) = den → roundHalfEven num den % 2 = 0) := by
  have cases : roundHalfEven num den = if 2 * (num % den) < den then num / den
    else if den < 2 * (num % den) then num / den + 1 else num / den + num / den % 2 := rfl
  rw [cases]
  split
  · omega
  · split <;> omega

theorem roundHalfEven_isRounded (num : Nat) {den : Nat} (pos : 0 < den) :
    IsRounded num den (roundHalfEven num den) := by
  have division : num / den * den + num % den = num := Nat.div_add_mod' num den
  have inside : num % den < den := Nat.mod_lt num pos
  obtain ⟨⟨rounded, half⟩ | ⟨rounded, half⟩, even⟩ := roundHalfEven_cases num den
  · rw [rounded] at even ⊢
    constructor <;> simp only [Nat.add_mul, Nat.mul_assoc] <;> omega
  · rw [rounded] at even ⊢
    constructor <;> simp only [Nat.add_mul, Nat.mul_add, Nat.mul_assoc] <;> omega

namespace Double

/-- The magnitude with these bits, in units of `2 ^ -1074`. -/
def unitsAt (bits : Nat) : Nat :=
  if bits / hiddenBit = 0 then bits % hiddenBit
  else (hiddenBit + bits % hiddenBit) * Nat.pow 2 (bits / hiddenBit - 1)

theorem unitsAt_fields (exponent : Nat) {fraction : Nat} (inside : fraction < hiddenBit) :
    unitsAt (exponent * hiddenBit + fraction) =
      if exponent = 0 then fraction else (hiddenBit + fraction) * 2 ^ (exponent - 1) := by
  have quotient : (exponent * hiddenBit + fraction) / hiddenBit = exponent := by
    rw [Nat.mul_comm, Nat.mul_add_div (by decide), Nat.div_eq_of_lt inside, Nat.add_zero]
  have rest : (exponent * hiddenBit + fraction) % hiddenBit = fraction := by
    rw [Nat.mul_add_mod', Nat.mod_eq_of_lt inside]
  rw [unitsAt, quotient, rest]
  rfl

/-- A significand of at most fifty-three bits, shifted: the bits are those of the shift and, added
    to them, the significand. -/
theorem unitsAt_shifted {shift significand : Nat} (small : significand ≤ 2 * hiddenBit)
    (normal : shift = 0 ∨ hiddenBit ≤ significand) :
    unitsAt (shift * hiddenBit + significand) = significand * 2 ^ shift := by
  rcases Nat.lt_or_ge significand hiddenBit with subnormal | more
  · obtain rfl : shift = 0 := normal.resolve_right (Nat.not_le_of_lt subnormal)
    rw [unitsAt_fields 0 subnormal, if_pos rfl, Nat.pow_zero, Nat.mul_one]
  · obtain ⟨fraction, rfl⟩ := Nat.exists_eq_add_of_le more
    rcases Nat.lt_or_ge fraction hiddenBit with inside | full
    · have carried : shift * hiddenBit + (hiddenBit + fraction) =
          (shift + 1) * hiddenBit + fraction := by ring
      rw [carried, unitsAt_fields _ inside, if_neg (Nat.succ_ne_zero _), Nat.add_sub_cancel]
    · obtain rfl : fraction = hiddenBit := by omega
      have carried : shift * hiddenBit + (hiddenBit + hiddenBit) =
          (shift + 2) * hiddenBit + 0 := by ring
      rw [carried, unitsAt_fields _ (by decide), if_neg (Nat.succ_ne_zero _), Nat.add_zero,
        Nat.succ_sub_one, Nat.pow_succ]
      ring

theorem exists_shifted (bits : Nat) : ∃ shift significand, significand < 2 * hiddenBit ∧
    (shift = 0 ∨ hiddenBit ≤ significand) ∧ bits = shift * hiddenBit + significand := by
  have division : bits / hiddenBit * hiddenBit + bits % hiddenBit = bits :=
    Nat.div_add_mod' bits hiddenBit
  have inside : bits % hiddenBit < hiddenBit := Nat.mod_lt _ (by decide)
  cases exponent : bits / hiddenBit with
  | zero => exact ⟨0, bits % hiddenBit, by omega, .inl rfl, by rw [exponent] at division; omega⟩
  | succ shift =>
      refine ⟨shift, hiddenBit + bits % hiddenBit, by omega, .inr (Nat.le_add_right _ _), ?_⟩
      rw [exponent, Nat.succ_mul] at division
      omega

theorem unitsAt_strictMono : StrictMono unitsAt := by
  refine strictMono_nat_of_lt_succ fun bits => ?_
  obtain ⟨shift, significand, small, normal, rfl⟩ := exists_shifted bits
  have next : unitsAt (shift * hiddenBit + (significand + 1)) = (significand + 1) * 2 ^ shift :=
    unitsAt_shifted small (normal.imp_right Nat.le_succ_of_le)
  rw [Nat.add_assoc, next, unitsAt_shifted (Nat.le_of_lt small) normal]
  exact Nat.mul_lt_mul_of_pos_right (Nat.lt_succ_self _) (Nat.two_pow_pos _)

/-- The magnitude with these bits is as near to `num / den` units as its two neighbours are, of
    which infinity has only one. The bits are even if a neighbour is as near. -/
structure Between (num den bits : Nat) : Prop where
  below : ∀ before, before + 1 = bits →
    (unitsAt before + unitsAt bits) * den ≤ 2 * num ∧
      ((unitsAt before + unitsAt bits) * den = 2 * num → bits % 2 = 0)
  above : bits < infinityBits →
    2 * num ≤ (unitsAt bits + unitsAt (bits + 1)) * den ∧
      (2 * num = (unitsAt bits + unitsAt (bits + 1)) * den → bits % 2 = 0)

variable {num den shift significand : Nat}

/-- A significand that was rounded from fifty-three bits has no more than its carry, and is not
    smaller than the hidden bit if the number was not. -/
theorem significand_bounds (pos : 0 < den)
    (rounded : IsRounded num (den * 2 ^ shift) significand)
    (small : num < 2 * hiddenBit * (den * 2 ^ shift))
    (normal : shift = 0 ∨ hiddenBit * (den * 2 ^ shift) ≤ num) :
    significand ≤ 2 * hiddenBit ∧ (shift = 0 ∨ hiddenBit ≤ significand) := by
  have unit : 0 < den * 2 ^ shift := Nat.mul_pos pos (Nat.two_pow_pos _)
  constructor
  · have scaled : 2 * significand * (den * 2 ^ shift) <
        (4 * hiddenBit + 1) * (den * 2 ^ shift) := by linarith only [rounded.below, small]
    have := Nat.lt_of_mul_lt_mul_right scaled
    omega
  · refine normal.imp_right fun normal => ?_
    have scaled : 2 * hiddenBit * (den * 2 ^ shift) ≤
        (2 * significand + 1) * (den * 2 ^ shift) := by linarith only [rounded.above, normal]
    have := Nat.le_of_mul_le_mul_right scaled unit
    omega

/-- Rounding the significand is enough, if it is large or not shifted. -/
theorem between_of_isRounded (pos : 0 < den)
    (rounded : IsRounded num (den * 2 ^ shift) significand)
    (small : num < 2 * hiddenBit * (den * 2 ^ shift))
    (normal : shift = 0 ∨ hiddenBit * (den * 2 ^ shift) ≤ num) :
    Between num den (shift * hiddenBit + significand) := by
  obtain ⟨inside, large⟩ := significand_bounds pos rounded small normal
  have value := unitsAt_shifted inside large
  have parity : (shift * hiddenBit + significand) % 2 = significand % 2 := by
    unfold hiddenBit
    omega
  constructor
  · intro before next
    by_cases edge : shift ≠ 0 ∧ significand = hiddenBit
    · -- At a power of two the double below is nearer by half, but the number is above.
      obtain ⟨notZero, rfl⟩ := edge
      have less : unitsAt before < hiddenBit * 2 ^ shift :=
        value ▸ unitsAt_strictMono (Nat.lt_of_succ_le (Nat.le_of_eq next))
      have nearer : (unitsAt before + hiddenBit * 2 ^ shift) * den < 2 * num := by
        have scaled := Nat.mul_lt_mul_of_pos_right less pos
        linarith only [scaled, normal.resolve_left notZero]
      rw [value]
      exact ⟨Nat.le_of_lt nearer, fun tie => absurd tie (Nat.ne_of_lt nearer)⟩
    · obtain ⟨fewer, rfl⟩ : ∃ fewer, significand = fewer + 1 := by
        refine Nat.exists_eq_succ_of_ne_zero ?_
        rintro rfl
        obtain rfl : shift = 0 := large.resolve_right (by decide)
        rw [Nat.zero_mul] at next
        exact absurd next (Nat.succ_ne_zero before)
      obtain rfl : before = shift * hiddenBit + fewer := by omega
      have valueBelow : unitsAt (shift * hiddenBit + fewer) = fewer * 2 ^ shift :=
        unitsAt_shifted (Nat.le_of_succ_le inside) (by omega)
      have sum : (fewer * 2 ^ shift + (fewer + 1) * 2 ^ shift) * den + den * 2 ^ shift =
          2 * (fewer + 1) * (den * 2 ^ shift) := by ring
      rw [value, valueBelow, parity]
      refine ⟨by linarith only [sum, rounded.below], fun tie => rounded.even (.inr ?_)⟩
      linarith only [sum, tie]
  · intro _
    rcases Nat.lt_or_ge significand (2 * hiddenBit) with less | full
    · have valueAbove : unitsAt (shift * hiddenBit + (significand + 1)) =
          (significand + 1) * 2 ^ shift :=
        unitsAt_shifted less (large.imp_right Nat.le_succ_of_le)
      have sum : (significand * 2 ^ shift + (significand + 1) * 2 ^ shift) * den =
          (2 * significand + 1) * (den * 2 ^ shift) := by ring
      rw [value, Nat.add_assoc, valueAbove, sum, parity]
      exact ⟨rounded.above, fun tie => rounded.even (.inl tie)⟩
    · obtain rfl : significand = 2 * hiddenBit := Nat.le_antisymm inside full
      have less := unitsAt_strictMono (Nat.lt_succ_self (shift * hiddenBit + 2 * hiddenBit))
      rw [value] at less
      have nearer : 2 * num < (2 * hiddenBit * 2 ^ shift +
          unitsAt (shift * hiddenBit + 2 * hiddenBit + 1)) * den := by
        have scaled := Nat.mul_lt_mul_of_pos_right less pos
        linarith only [scaled, small]
      rw [value]
      exact ⟨Nat.le_of_lt nearer, fun tie => absurd tie (Nat.ne_of_lt nearer)⟩

/-- The shift leaves fifty-three bits of the quotient, or all if it has fewer. -/
theorem bounds_of_shift (num : Nat) (pos : 0 < den) (shifts : shift = (num / den).log2 - 52) :
    num < 2 * hiddenBit * (den * 2 ^ shift) ∧
      (shift = 0 ∨ hiddenBit * (den * 2 ^ shift) ≤ num) := by
  have hidden : hiddenBit = 2 ^ 52 := by decide
  rw [hidden]
  constructor
  · have small : num / den < 2 ^ (53 + shift) :=
      Nat.lt_of_lt_of_le Nat.lt_log2_self (Nat.pow_le_pow_right (by decide) (by omega))
    have scaled := (Nat.div_lt_iff_lt_mul pos).mp small
    rw [Nat.pow_add] at scaled
    linarith only [scaled]
  · rcases Nat.eq_zero_or_pos shift with none | some
    · exact .inl none
    · have exponent : (num / den).log2 = 52 + shift := by omega
      have notZero : num / den ≠ 0 := by
        intro zero
        rw [zero] at exponent
        exact absurd exponent (by simp only [Nat.log2_zero]; omega)
      have large := Nat.log2_self_le notZero
      rw [exponent, Nat.le_div_iff_mul_le pos, Nat.pow_add] at large
      exact .inr (by linarith only [large])

theorem Between.infinity {bits : Nat} (h : Between num den bits) (large : infinityBits ≤ bits) :
    Between num den infinityBits := by
  refine ⟨fun before next => ⟨?_, fun _ => by decide⟩, fun less => absurd less (Nat.lt_irrefl _)⟩
  obtain ⟨lower, rfl⟩ : ∃ lower, bits = lower + 1 := ⟨bits - 1, by omega⟩
  have here : unitsAt infinityBits ≤ unitsAt (lower + 1) := unitsAt_strictMono.monotone large
  have there : unitsAt before ≤ unitsAt lower := unitsAt_strictMono.monotone (by omega)
  have sum := Nat.mul_le_mul_right den (Nat.add_le_add there here)
  exact sum.trans (h.below lower rfl).1

theorem nearestBits_between (pos : 0 < den) (num : Nat) :
    Between (num * unitsOfOne) den (nearestBits num den) := by
  obtain ⟨small, normal⟩ := bounds_of_shift (num * unitsOfOne) pos rfl
  have rounded := roundHalfEven_isRounded (num * unitsOfOne)
    (Nat.mul_pos pos (Nat.two_pow_pos ((num * unitsOfOne / den).log2 - 52)))
  have nearest := between_of_isRounded pos rounded small normal
  simp only [nearestBits]
  split
  · exact nearest
  · next notLess => exact nearest.infinity (Nat.le_of_not_lt notLess)

theorem nearestBits_le (num den : Nat) : nearestBits num den ≤ infinityBits := by
  simp only [nearestBits]
  split
  · next less => exact Nat.le_of_lt less
  · exact Nat.le_refl _

def magnitudeBits (d : Double) : Nat := d.bits.toNat % signBit

theorem magnitudeBits_lt (d : Double) : d.magnitudeBits < signBit := Nat.mod_lt _ (by decide)

theorem exponent_eq (d : Double) : d.exponent = d.magnitudeBits / hiddenBit := by
  unfold exponent magnitudeBits signBit hiddenBit
  omega

theorem fraction_eq (d : Double) : d.fraction = d.magnitudeBits % hiddenBit := by
  unfold fraction magnitudeBits signBit hiddenBit
  omega

theorem units_eq (d : Double) : d.units = unitsAt d.magnitudeBits := by
  rw [units, unitsAt, exponent_eq, fraction_eq]

theorem isNaN_eq_false {d : Double} : d.isNaN = false ↔ d.magnitudeBits ≤ infinityBits := by
  have below := d.magnitudeBits_lt
  simp only [isNaN, exponent_eq, fraction_eq, Bool.and_eq_false_imp, decide_eq_true_eq,
    decide_eq_false_iff_not, not_not]
  unfold signBit at below
  unfold hiddenBit infinityBits
  omega

theorem fraction_mod_two (d : Double) : d.fraction % 2 = d.magnitudeBits % 2 := by
  rw [fraction_eq]
  unfold hiddenBit
  omega

theorem ext_magnitude {d e : Double} (sign : d.isNegative = e.isNegative)
    (magnitude : d.magnitudeBits = e.magnitudeBits) : d = e := by
  have same : d.bits.toNat = e.bits.toNat := by
    have hd := d.bits.toNat_lt
    have he := e.bits.toNat_lt
    simp only [isNegative, decide_eq_decide] at sign
    unfold magnitudeBits at magnitude
    unfold signBit at sign magnitude
    omega
  cases d
  cases e
  exact congrArg Double.mk (UInt64.toNat_inj.mp same)

def ofMagnitude (negative : Bool) (bits : Nat) : Double :=
  ⟨UInt64.ofNat (if negative then signBit + bits else bits)⟩

theorem toNat_ofMagnitude (negative : Bool) {bits : Nat} (small : bits < signBit) :
    (ofMagnitude negative bits).bits.toNat = if negative then signBit + bits else bits := by
  refine UInt64.toNat_ofNat_of_lt' ?_
  unfold signBit at *
  split
  · simp only [UInt64.size]
    omega
  · simp only [UInt64.size]
    omega

theorem isNegative_ofMagnitude (negative : Bool) {bits : Nat} (small : bits < signBit) :
    (ofMagnitude negative bits).isNegative = negative := by
  rw [isNegative, toNat_ofMagnitude negative small]
  cases negative <;> simp [small]

theorem magnitudeBits_ofMagnitude (negative : Bool) {bits : Nat} (small : bits < signBit) :
    (ofMagnitude negative bits).magnitudeBits = bits := by
  rw [magnitudeBits, toNat_ofMagnitude negative small]
  cases negative <;> simp [Nat.mod_eq_of_lt small]

/-- The magnitude as a number. That of infinity is the power of two above the finite ones. -/
def magnitude (d : Double) : ℚ := d.units / unitsOfOne

theorem unitsOfOne_pos : (0 : ℚ) < unitsOfOne := by
  unfold unitsOfOne
  generalize 1074 = exponent
  exact Nat.cast_pos.mpr (Nat.two_pow_pos exponent)

theorem magnitude_lt_iff {d e : Double} :
    d.magnitude < e.magnitude ↔ d.magnitudeBits < e.magnitudeBits := by
  rw [magnitude, magnitude, div_lt_div_iff_of_pos_right unitsOfOne_pos, units_eq, units_eq,
    Nat.cast_lt, unitsAt_strictMono.lt_iff_lt]

/-- What `y` or its negation rounds to: no double is nearer, and if another one is as near, the
    significand is even. -/
structure IsNearest (d : Double) (negative : Bool) (y : ℚ) : Prop where
  sign : d.isNegative = negative
  number : d.isNaN = false
  least : ∀ e : Double, e.isNaN = false → |d.magnitude - y| ≤ |e.magnitude - y|
  even : ∀ e : Double, e.isNaN = false → e.magnitude ≠ d.magnitude →
    |e.magnitude - y| = |d.magnitude - y| → d.fraction % 2 = 0

section Distances

variable {a b c y : ℚ}

theorem abs_sub_le_of_midpoint_le (less : a < b) (mid : a + b ≤ 2 * y) :
    |b - y| ≤ |a - y| ∧ (|a - y| = |b - y| → a + b = 2 * y) := by
  have behind : |a - y| = y - a := by
    rw [abs_sub_comm]
    exact abs_of_pos (by linarith)
  rw [behind]
  refine ⟨abs_le.mpr ⟨by linarith, by linarith⟩, fun same => ?_⟩
  rcases abs_cases (b - y) with ⟨ahead, -⟩ | ⟨ahead, -⟩ <;> linarith

theorem abs_sub_le_of_le_midpoint (less : a < b) (mid : 2 * y ≤ a + b) :
    |a - y| ≤ |b - y| ∧ (|b - y| = |a - y| → 2 * y = a + b) := by
  have ahead : |b - y| = b - y := abs_of_pos (by linarith)
  rw [ahead]
  refine ⟨abs_le.mpr ⟨by linarith, by linarith⟩, fun same => ?_⟩
  rcases abs_cases (a - y) with ⟨behind, -⟩ | ⟨behind, -⟩ <;> linarith

/-- What is between two numbers as far away is nearer. -/
theorem abs_sub_lt_of_between (above : a < b) (below : b < c) (same : |a - y| = |c - y|) :
    |b - y| < |a - y| := by
  have center : a + c = 2 * y := by
    rcases abs_eq_abs.mp same with same | opposite <;> linarith
  have behind : |a - y| = y - a := by
    rw [abs_sub_comm]
    exact abs_of_pos (by linarith)
  rw [behind]
  exact abs_lt.mpr ⟨by linarith, by linarith⟩

end Distances

/-- Rounding has one result. -/
theorem IsNearest.unique {d e : Double} {negative : Bool} {y : ℚ} (hd : d.IsNearest negative y)
    (he : e.IsNearest negative y) : d = e := by
  refine ext_magnitude (hd.sign.trans he.sign.symm) ?_
  by_contra different
  wlog less : d.magnitudeBits < e.magnitudeBits generalizing d e
  · exact this he hd (Ne.symm different) (by omega)
  have same : |d.magnitude - y| = |e.magnitude - y| :=
    le_antisymm (hd.least e he.number) (he.least d hd.number)
  have farther := magnitude_lt_iff.mpr less
  have even := hd.even e he.number (ne_of_gt farther) same.symm
  have even' := he.even d hd.number (ne_of_lt farther) same
  rw [fraction_mod_two] at even even'
  -- Two even magnitudes have one between them.
  have last := isNaN_eq_false.mp he.number
  have small : d.magnitudeBits + 1 < signBit := by
    unfold infinityBits at last
    unfold signBit
    omega
  let middle := ofMagnitude false (d.magnitudeBits + 1)
  have bits : middle.magnitudeBits = d.magnitudeBits + 1 := magnitudeBits_ofMagnitude false small
  have least := hd.least middle (isNaN_eq_false.mpr (by omega))
  refine absurd least (not_le_of_gt (abs_sub_lt_of_between ?_ ?_ same))
  · exact magnitude_lt_iff.mpr (by omega)
  · exact magnitude_lt_iff.mpr (by omega)

namespace Between

variable {bits other : Nat}

theorem below_of_lt (h : Between num den bits) (less : other < bits) :
    (unitsAt other + unitsAt bits) * den ≤ 2 * num ∧
      ((unitsAt other + unitsAt bits) * den = 2 * num → bits % 2 = 0) := by
  obtain ⟨before, rfl⟩ : ∃ before, bits = before + 1 := ⟨bits - 1, by omega⟩
  obtain ⟨mid, even⟩ := h.below before rfl
  have lower : unitsAt other ≤ unitsAt before :=
    unitsAt_strictMono.monotone (Nat.le_of_lt_succ less)
  have sum := Nat.mul_le_mul_right den (Nat.add_le_add_right lower (unitsAt (before + 1)))
  exact ⟨sum.trans mid, fun tie => even (Nat.le_antisymm mid (tie ▸ sum))⟩

theorem above_of_lt (h : Between num den bits) (less : bits < other) (last : other ≤ infinityBits) :
    2 * num ≤ (unitsAt bits + unitsAt other) * den ∧
      (2 * num = (unitsAt bits + unitsAt other) * den → bits % 2 = 0) := by
  obtain ⟨mid, even⟩ := h.above (Nat.lt_of_lt_of_le less last)
  have upper : unitsAt (bits + 1) ≤ unitsAt other := unitsAt_strictMono.monotone less
  have sum := Nat.mul_le_mul_right den (Nat.add_le_add_left upper (unitsAt bits))
  exact ⟨mid.trans sum, fun tie => even (Nat.le_antisymm mid (tie ▸ sum))⟩

end Between

theorem midpoint_le_iff (pos : 0 < den) (a b : Nat) :
    (a / unitsOfOne + b / unitsOfOne : ℚ) ≤ 2 * (num / den) ↔
      (a + b) * den ≤ 2 * (num * unitsOfOne) := by
  rw [← add_div, ← mul_div_assoc, div_le_div_iff₀ unitsOfOne_pos (Nat.cast_pos.mpr pos), mul_assoc]
  exact_mod_cast Iff.rfl

theorem le_midpoint_iff (pos : 0 < den) (a b : Nat) :
    2 * (num / den) ≤ (a / unitsOfOne + b / unitsOfOne : ℚ) ↔
      2 * (num * unitsOfOne) ≤ (a + b) * den := by
  rw [← add_div, ← mul_div_assoc, div_le_div_iff₀ (Nat.cast_pos.mpr pos) unitsOfOne_pos, mul_assoc]
  exact_mod_cast Iff.rfl

theorem ofRatio_isNearest (negative : Bool) (pos : 0 < den) (num : Nat) :
    (ofRatio negative num den).IsNearest negative (num / den) := by
  have rounds : ofRatio negative num den = ofMagnitude negative (nearestBits num den) := rfl
  have last := nearestBits_le num den
  have small : nearestBits num den < signBit := Nat.lt_of_le_of_lt last (by decide)
  have sign := isNegative_ofMagnitude negative small
  have bits := magnitudeBits_ofMagnitude negative small
  have between := nearestBits_between pos num
  rw [rounds]
  generalize ofMagnitude negative (nearestBits num den) = d at *
  rw [← bits] at between last
  have compared : ∀ e : Double, e.isNaN = false → e.magnitude ≠ d.magnitude →
      |d.magnitude - num / den| ≤ |e.magnitude - num / den| ∧
        (|e.magnitude - num / den| = |d.magnitude - num / den| → d.fraction % 2 = 0) := by
    intro e number different
    rw [fraction_mod_two]
    rcases lt_or_gt_of_ne different with less | greater
    · obtain ⟨mid, even⟩ := between.below_of_lt (magnitude_lt_iff.mp less)
      rw [← units_eq, ← units_eq] at mid even
      obtain ⟨nearer, tie⟩ := abs_sub_le_of_midpoint_le less ((midpoint_le_iff pos _ _).mpr mid)
      refine ⟨nearer, fun same => even (Nat.le_antisymm mid ?_)⟩
      exact (le_midpoint_iff pos _ _).mp (tie same).ge
    · obtain ⟨mid, even⟩ := between.above_of_lt (magnitude_lt_iff.mp greater)
        (isNaN_eq_false.mp number)
      rw [← units_eq, ← units_eq] at mid even
      obtain ⟨nearer, tie⟩ := abs_sub_le_of_le_midpoint greater ((le_midpoint_iff pos _ _).mpr mid)
      refine ⟨nearer, fun same => even (Nat.le_antisymm mid ?_)⟩
      exact (midpoint_le_iff pos _ _).mp (tie same).ge
  refine ⟨sign, isNaN_eq_false.mpr last, fun e number => ?_, fun e number different =>
    (compared e number different).2⟩
  by_cases same : e.magnitude = d.magnitude
  · rw [same]
  · exact (compared e number same).1

end Double

def Decimal.value (x : Decimal) : ℚ := x.significand * 10 ^ x.exponent

theorem Decimal.value_eq (x : Decimal) : x.value =
    (x.significand * tenTo x.exponent.toNat : Nat) / (tenTo (-x.exponent).toNat : Nat) := by
  have power : ∀ n, tenTo n = 10 ^ n := fun _ => rfl
  obtain ⟨n, exponent | exponent⟩ := x.exponent.eq_nat_or_neg
  · simp [value, exponent, power]
  · simp [value, exponent, power, div_eq_mul_inv]

/-- A decimal is read as the nearest double. -/
theorem Double.isNearest_iff {d : Double} {negative : Bool} {x : Decimal} :
    d.IsNearest negative x.value ↔ d = ofDecimal negative x := by
  have pos : 0 < tenTo (-x.exponent).toNat := Nat.pow_pos (by decide)
  have nearest : (ofDecimal negative x).IsNearest negative x.value := by
    rw [x.value_eq]
    exact ofRatio_isNearest negative pos _
  exact ⟨fun read => read.unique nearest, fun same => same ▸ nearest⟩

end Reckon
