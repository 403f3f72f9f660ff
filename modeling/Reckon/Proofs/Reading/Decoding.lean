import Reckon.Source
import Reckon.Text.Utf8

/-! # Decoding line by line

A line feed ends whatever character the decoder is inside, and no other bytes make one. So the
bytes between two line feeds decode to what stands between these line feeds in the decoded text,
and a source can be decoded line by line.
-/

namespace Reckon.Utf8

/-- No byte of ASCII goes on with the character, and no character of ASCII can come of it. -/
structure Pending.Multibyte (p : Pending) : Prop where
  low : 128 ≤ p.low
  high : p.high ≤ 191
  least : 2 ≤ p.code * 64 + (p.low - 128)
  last : p.owed = 1 → 128 ≤ p.code * 64 + (p.low - 128)

/-- The decoder is between two characters, or inside one of several bytes. -/
def Inside : Option Pending → Prop
  | none => True
  | some p => p.Multibyte

theorem inside_none : Inside none := trivial

/-- What a first byte leads to. -/
inductive StartsAs (byte : Nat) : List Char × Option Pending → Prop
  | ascii : StartsAs byte ([Char.ofNat byte], none)
  | invalid : StartsAs byte ([replacement], none)
  | opens {p : Pending} : p.Multibyte → StartsAs byte ([], some p)

theorem startsAs_start (byte : Nat) : StartsAs byte (start byte) := by
  unfold start
  repeat' split
  all_goals
    first
    | exact .ascii
    | exact .invalid
    | refine .opens ?_
      constructor <;> simp only <;> omega

theorem start_inside (byte : Nat) : Inside (start byte).2 := by
  have outcome := startsAs_start byte
  generalize start byte = started at outcome ⊢
  cases outcome with
  | ascii | invalid => trivial
  | opens inside => exact inside

theorem step_inside {state : Option Pending} (inside : Inside state) (byte : Nat) :
    Inside (step state byte).2 := by
  cases state with
  | none => exact start_inside byte
  | some p =>
      obtain ⟨low, high, least, -⟩ := inside
      simp only [step]
      split
      · split
        · trivial
        · constructor <;> simp only <;> omega
      · exact start_inside byte

theorem ofNat_ne_lineFeed {n : Nat} (other : n ≠ 10) : Char.ofNat n ≠ '\n' := by
  intro same
  have code : (Char.ofNat n).toNat = 10 := congrArg Char.toNat same
  by_cases valid : n.isValidChar
  · rw [Char.ofNat, dif_pos valid] at code
    exact other code
  · rw [Char.ofNat, dif_neg valid] at code
    contradiction

theorem lineFeed_not_mem_start {byte : Nat} (other : byte ≠ 10) : '\n' ∉ (start byte).1 := by
  have outcome := startsAs_start byte
  generalize start byte = started at outcome ⊢
  cases outcome with
  | ascii => simpa using (ofNat_ne_lineFeed other).symm
  | invalid => simp [replacement]
  | opens => exact List.not_mem_nil

theorem lineFeed_not_mem_step {state : Option Pending} (inside : Inside state) {byte : Nat}
    (other : byte ≠ 10) : '\n' ∉ (step state byte).1 := by
  cases state with
  | none => exact lineFeed_not_mem_start other
  | some p =>
      obtain ⟨low, high, -, last⟩ := inside
      simp only [step]
      split
      · split
        · next done =>
          have := last done
          simpa using (ofNat_ne_lineFeed (by omega)).symm
        · exact List.not_mem_nil
      · simpa [replacement] using lineFeed_not_mem_start other

theorem lineFeed_not_mem_decodeFrom {state : Option Pending} (inside : Inside state)
    {bytes : List UInt8} (other : lineFeed ∉ bytes) : '\n' ∉ decodeFrom state bytes := by
  induction bytes generalizing state with
  | nil => cases state <;> simp [decodeFrom, replacement]
  | cons byte bytes ih =>
      rw [List.mem_cons, not_or] at other
      have notFeed : byte.toNat ≠ 10 := fun same => other.1 (UInt8.toNat_inj.mp same.symm)
      simp only [decodeFrom, List.mem_append, not_or]
      exact ⟨lineFeed_not_mem_step inside notFeed, ih (step_inside inside _) other.2⟩

/-- A line feed ends the character that the decoder is inside, as the end of the bytes would. -/
theorem decodeFrom_lineFeed {state : Option Pending} (inside : Inside state) (rest : List UInt8) :
    decodeFrom state (lineFeed :: rest) = decodeFrom state [] ++ '\n' :: decode rest := by
  cases state with
  | none => rfl
  | some p =>
      have outside : ¬(p.low ≤ lineFeed.toNat ∧ lineFeed.toNat ≤ p.high) := fun within =>
        absurd (Nat.le_trans inside.low within.1) (by decide)
      simp only [decodeFrom, step, if_neg outside]
      rfl

theorem decodeFrom_append_lineFeed {state : Option Pending} (inside : Inside state)
    (line rest : List UInt8) :
    decodeFrom state (line ++ lineFeed :: rest) = decodeFrom state line ++ '\n' :: decode rest := by
  induction line generalizing state with
  | nil => exact decodeFrom_lineFeed inside rest
  | cons byte line ih =>
      simp only [List.cons_append, decodeFrom, ih (step_inside inside byte.toNat),
        List.append_assoc]

theorem decode_append_lineFeed (line rest : List UInt8) :
    decode (line ++ lineFeed :: rest) = decode line ++ '\n' :: decode rest :=
  decodeFrom_append_lineFeed inside_none line rest

theorem lineFeed_not_mem_decode {bytes : List UInt8} (other : lineFeed ∉ bytes) :
    '\n' ∉ decode bytes :=
  lineFeed_not_mem_decodeFrom inside_none other

end Reckon.Utf8
