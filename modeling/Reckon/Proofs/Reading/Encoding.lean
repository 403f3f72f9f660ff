import Reckon.Source
import Reckon.Text.Utf8

/-! # Encoded text is read back

The bytes of a string decode to its characters. A first byte says how many bytes are owed and
gives the high bits of the code point, and every byte behind it gives six more; the narrower
bounds on the second byte leave out nothing that a character is encoded as.
-/

namespace Reckon.Utf8

variable {code : Nat} {rest : List UInt8}

/-- The byte of the lowest six bits that are left. -/
def continuation (code : Nat) : UInt8 := UInt8.ofNat (code % 64 + 128)

theorem toNat_continuation (code : Nat) : (continuation code).toNat = code % 64 + 128 :=
  UInt8.toNat_ofNat_of_lt (by omega : code % 64 + 128 < 256)

theorem decodeFrom_last {low high : Nat} (least : low ≤ code % 64 + 128)
    (most : code % 64 + 128 ≤ high) :
    decodeFrom (some ⟨code / 64, 1, low, high⟩) (continuation code :: rest) =
      Char.ofNat code :: decode rest := by
  have whole : code / 64 * 64 + (code % 64 + 128) % 64 = code := by omega
  simp only [decodeFrom, step, toNat_continuation, least, most, whole, and_self, if_true]
  rfl

theorem decodeFrom_more {owed low high : Nat} (least : low ≤ code % 64 + 128)
    (most : code % 64 + 128 ≤ high) :
    decodeFrom (some ⟨code / 64, owed + 2, low, high⟩) (continuation code :: rest) =
      decodeFrom (some ⟨code, owed + 1, 0x80, 0xBF⟩) rest := by
  have whole : code / 64 * 64 + (code % 64 + 128) % 64 = code := by omega
  have notLast : owed + 2 ≠ 1 := by omega
  simp only [decodeFrom, step, toNat_continuation, least, most, whole, and_self, if_true,
    if_neg notLast]
  rfl

theorem start_two (code : Nat) (least : 0x80 ≤ code) (most : code < 0x800) :
    start (code / 64 + 0xC0) = ([], some ⟨code / 64, 1, 0x80, 0xBF⟩) := by
  unfold start
  rw [if_neg (by omega), if_neg (by omega), if_pos (by omega), Nat.add_sub_cancel]

theorem start_three (code : Nat) (least : 0x800 ≤ code) (most : code < 0x10000)
    (valid : code < 0xD800 ∨ 0xDFFF < code) :
    ∃ low high, start (code / 64 / 64 + 0xE0) = ([], some ⟨code / 64 / 64, 2, low, high⟩) ∧
      low ≤ code / 64 % 64 + 128 ∧ code / 64 % 64 + 128 ≤ high := by
  unfold start
  rw [if_neg (by omega), if_neg (by omega), if_neg (by omega)]
  by_cases first : code / 64 / 64 = 0
  · rw [if_pos (by omega), first]
    exact ⟨_, _, rfl, by omega, by omega⟩
  · rw [if_neg (by omega)]
    by_cases surrogates : code / 64 / 64 = 0xD
    · rw [if_pos (by omega), surrogates]
      exact ⟨_, _, rfl, by omega, by omega⟩
    · rw [if_neg (by omega), if_pos (by omega), Nat.add_sub_cancel]
      exact ⟨_, _, rfl, by omega, by omega⟩

theorem start_four (code : Nat) (least : 0x10000 ≤ code) (most : code < 0x110000) :
    ∃ low high,
      start (code / 64 / 64 / 64 + 0xF0) = ([], some ⟨code / 64 / 64 / 64, 3, low, high⟩) ∧
      low ≤ code / 64 / 64 % 64 + 128 ∧ code / 64 / 64 % 64 + 128 ≤ high := by
  unfold start
  rw [if_neg (by omega), if_neg (by omega), if_neg (by omega), if_neg (by omega),
    if_neg (by omega), if_neg (by omega)]
  by_cases first : code / 64 / 64 / 64 = 0
  · rw [if_pos (by omega), first]
    exact ⟨_, _, rfl, by omega, by omega⟩
  · rw [if_neg (by omega)]
    by_cases last : code / 64 / 64 / 64 = 4
    · rw [if_neg (by omega), if_pos (by omega), last]
      exact ⟨_, _, rfl, by omega, by omega⟩
    · rw [if_pos (by omega), Nat.add_sub_cancel]
      exact ⟨_, _, rfl, by omega, by omega⟩

theorem decode_cons_opens {byte : UInt8} {p : Pending} (opens : start byte.toNat = ([], some p)) :
    decode (byte :: rest) = decodeFrom (some p) rest := by
  simp only [decode, decodeFrom, step, opens, List.nil_append]

/-- The bytes of a character come first, and it is read. -/
theorem decode_encodeChar (c : Char) (rest : List UInt8) :
    decode (String.utf8EncodeChar c ++ rest) = c :: decode rest := by
  have isCode : Char.ofNat c.val.toNat = c := Char.ofNat_toNat c
  have valid : c.val.toNat < 0xD800 ∨ 0xDFFF < c.val.toNat ∧ c.val.toNat < 0x110000 := c.valid
  simp only [String.utf8EncodeChar]
  generalize c.val.toNat = code at isCode valid
  subst isCode
  split
  · have first : (UInt8.ofNat code).toNat = code :=
      UInt8.toNat_ofNat_of_lt (by omega : code < 256)
    have ascii : start code = ([Char.ofNat code], none) := if_pos (by omega)
    simp only [List.cons_append, List.nil_append, decode, decodeFrom, step, first, ascii]
  · split
    · have first : (UInt8.ofNat (code / 64 % 32 + 192)).toNat = code / 64 + 0xC0 :=
        (UInt8.toNat_ofNat_of_lt (by omega : code / 64 % 32 + 192 < 256)).trans (by omega)
      have opens := start_two code (by omega) (by omega)
      rw [← first] at opens
      rw [List.cons_append, decode_cons_opens opens]
      exact decodeFrom_last (by omega) (by omega)
    · split
      · have first : (UInt8.ofNat (code / 4096 % 16 + 224)).toNat = code / 64 / 64 + 0xE0 :=
          (UInt8.toNat_ofNat_of_lt (by omega : code / 4096 % 16 + 224 < 256)).trans (by omega)
        obtain ⟨low, high, opens, least, most⟩ :=
          start_three code (by omega) (by omega) (by omega)
        rw [← first] at opens
        rw [List.cons_append, decode_cons_opens opens]
        exact (decodeFrom_more least most).trans (decodeFrom_last (by omega) (by omega))
      · have first : (UInt8.ofNat (code / 262144 % 8 + 240)).toNat =
            code / 64 / 64 / 64 + 0xF0 :=
          (UInt8.toNat_ofNat_of_lt (by omega : code / 262144 % 8 + 240 < 256)).trans (by omega)
        obtain ⟨low, high, opens, least, most⟩ := start_four code (by omega) (by omega)
        rw [← first] at opens
        rw [List.cons_append, decode_cons_opens opens]
        have second : code / 4096 = code / 64 / 64 := by omega
        rw [second]
        refine (decodeFrom_more least most).trans ?_
        exact (decodeFrom_more (by omega) (by omega)).trans (decodeFrom_last (by omega) (by omega))

theorem decode_flatMap (text : List Char) :
    decode (text.flatMap String.utf8EncodeChar) = text := by
  induction text with
  | nil => rfl
  | cons c text ih => rw [List.flatMap_cons, decode_encodeChar, ih]

theorem toList_loop (bytes : ByteArray) (index : Nat) (read : List UInt8) :
    ByteArray.toList.loop bytes index read = read.reverseAux (bytes.data.toList.drop index) := by
  induction index, read using ByteArray.toList.loop.induct bytes with
  | case1 index read inside ih =>
      have next : bytes.data.toList.drop index =
          bytes.get! index :: bytes.data.toList.drop (index + 1) := by
        rw [List.drop_eq_getElem_cons (Array.length_toList ▸ inside)]
        simp only [ByteArray.get!, Array.getElem_toList, getElem!_pos bytes.data index inside]
      rw [ByteArray.toList.loop, if_pos inside, ih, next, List.reverseAux]
  | case2 index read outside =>
      have none : bytes.data.toList.drop index = [] :=
        List.drop_eq_nil_of_le (Array.length_toList ▸ Nat.le_of_not_lt outside)
      rw [ByteArray.toList.loop, if_neg outside, none, List.reverse]

theorem decode_ofString (text : List Char) :
    decode (Source.ofString (String.ofList text)).bytes = text := by
  have bytes : (Source.ofString (String.ofList text)).bytes =
      text.flatMap String.utf8EncodeChar := by
    simp [Source.ofString, ByteArray.toList, toList_loop, List.utf8Encode]
  rw [bytes, decode_flatMap]

end Reckon.Utf8
