import Mathlib.Data.List.TakeWhile
import Reckon.Proofs.Reading.Decoding

/-! # The lines of a source

Bytes are cut into lines behind each line feed, or into the pieces that stand between line feeds.
Both go by the same induction, and both can be done before or after decoding.
-/

namespace Reckon

theorem splitOn_of_not_mem {α : Type} [DecidableEq α] {a : α} {as : List α} (other : a ∉ as) :
    as.splitOn a = [as] := by
  apply List.splitOnP_eq_singleton
  intro b hb
  simpa using ne_of_mem_of_not_mem hb other

theorem splitOn_append {α : Type} [DecidableEq α] {a : α} {piece : List α} (other : a ∉ piece)
    (rest : List α) : (piece ++ a :: rest).splitOn a = piece :: rest.splitOn a := by
  refine List.splitOnP_append_cons_of_forall_mem ?_ a (by simp) rest
  intro b hb
  simpa using ne_of_mem_of_not_mem hb other

theorem cutLine_of_not_mem {line : List UInt8} (other : lineFeed ∉ line) :
    cutLine line = (line, []) := by
  have all : line.dropWhile (· != lineFeed) = [] := by
    refine List.dropWhile_eq_nil_iff.mpr fun byte mem => ?_
    exact bne_iff_ne.mpr (ne_of_mem_of_not_mem mem other)
  simp only [cutLine, all]

theorem cutLine_append_lineFeed {line : List UInt8} (other : lineFeed ∉ line)
    (rest : List UInt8) : cutLine (line ++ lineFeed :: rest) = (line ++ [lineFeed], rest) := by
  have inLine : ∀ byte ∈ line, (byte != lineFeed) = true := fun byte mem =>
    bne_iff_ne.mpr (ne_of_mem_of_not_mem mem other)
  have found : (line ++ lineFeed :: rest).dropWhile (· != lineFeed) = lineFeed :: rest := by
    simp [List.dropWhile_append_of_pos inLine]
  have before : (line ++ lineFeed :: rest).takeWhile (· != lineFeed) = line := by
    simp [List.takeWhile_append_of_pos inLine]
  simp only [cutLine, found, before]

/-- A list is a last piece without the separator, or a piece, the separator and more. -/
theorem pieces_induction {α : Type} [DecidableEq α] (a : α) {motive : List α → Prop}
    (last : ∀ piece, a ∉ piece → motive piece)
    (next : ∀ piece rest, a ∉ piece → motive rest → motive (piece ++ a :: rest))
    (as : List α) : motive as := by
  induction length : as.length using Nat.strongRecOn generalizing as with
  | _ length ih =>
      subst length
      by_cases mem : a ∈ as
      · obtain ⟨piece, rest, rfl, other⟩ := List.eq_append_cons_of_mem mem
        refine next piece rest other (ih rest.length ?_ rest rfl)
        simp only [List.length_append, List.length_cons]
        omega
      · exact last as mem

/-- Bytes are a last line without a line feed, or a line with one and more bytes. -/
theorem lines_induction {motive : List UInt8 → Prop}
    (last : ∀ line, lineFeed ∉ line → motive line)
    (next : ∀ line rest, lineFeed ∉ line → motive rest → motive (line ++ lineFeed :: rest))
    (bytes : List UInt8) : motive bytes := pieces_induction lineFeed last next bytes

theorem splitLines_of_not_mem {line : List UInt8} (other : lineFeed ∉ line) (some : line ≠ []) :
    splitLines line = [line] := by
  induction line with
  | nil => contradiction
  | cons byte line ih =>
      rw [List.mem_cons, not_or] at other
      simp only [splitLines, if_neg (Ne.symm other.1)]
      cases line with
      | nil => rfl
      | cons second line => rw [ih other.2 (List.cons_ne_nil _ _)]

theorem splitLines_append_lineFeed {line : List UInt8} (other : lineFeed ∉ line)
    (rest : List UInt8) :
    splitLines (line ++ lineFeed :: rest) = (line ++ [lineFeed]) :: splitLines rest := by
  induction line with
  | nil => rfl
  | cons byte line ih =>
      rw [List.mem_cons, not_or] at other
      simp only [List.cons_append, splitLines, if_neg (Ne.symm other.1), ih other.2]

theorem decode_splitLines (bytes : List UInt8) :
    ((splitLines bytes).map Utf8.decode).flatten = Utf8.decode bytes := by
  induction bytes using lines_induction with
  | last line other =>
      by_cases none : line = []
      · subst none
        rfl
      · simp [splitLines_of_not_mem other none]
  | next line rest other ih =>
      rw [splitLines_append_lineFeed other, List.map_cons, List.flatten_cons, ih,
        Utf8.decode_append_lineFeed, Utf8.decode_append_lineFeed, List.append_assoc]
      rfl

theorem decode_splitOn (bytes : List UInt8) :
    (Utf8.decode bytes).splitOn '\n' = (bytes.splitOn lineFeed).map Utf8.decode := by
  induction bytes using lines_induction with
  | last line other =>
      rw [splitOn_of_not_mem other, splitOn_of_not_mem (Utf8.lineFeed_not_mem_decode other)]
      rfl
  | next line rest other ih =>
      rw [splitOn_append other, Utf8.decode_append_lineFeed,
        splitOn_append (Utf8.lineFeed_not_mem_decode other), ih]
      rfl

end Reckon
