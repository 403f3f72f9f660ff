import Mathlib.Data.List.Basic
import Reckon.Ir.Text

/-! # Telling the pieces of a text apart

A text that is put together from pieces determines them if every piece shows where it ends: by a
character that it does not have and that comes behind it, or by itself. A run of such pieces is
known piece by piece, and so is a list with commas.
-/

namespace Reckon

/-- Two texts that go on with a character that neither has are the same. -/
theorem eq_of_append_stop {c : Char} {a b r s : List Char} (here : c ∉ a) (there : c ∉ b)
    (same : a ++ c :: r = b ++ c :: s) : a = b ∧ r = s := by
  induction a generalizing b with
  | nil =>
      cases b with
      | nil => exact ⟨rfl, List.tail_eq_of_cons_eq same⟩
      | cons x b => exact absurd (List.head_eq_of_cons_eq same ▸ List.mem_cons_self) there
  | cons x a ih =>
      cases b with
      | nil => exact absurd ((List.head_eq_of_cons_eq same).symm ▸ List.mem_cons_self) here
      | cons y b =>
          obtain ⟨rfl, rfl⟩ := ih (List.not_mem_of_not_mem_cons here)
            (List.not_mem_of_not_mem_cons there) (List.tail_eq_of_cons_eq same)
          exact ⟨by rw [List.head_eq_of_cons_eq same], rfl⟩

section Pieces

variable {α β : Type} {g : α → β} {as : List α} {bs : List β}

/-- A run of pieces is known piece by piece, if what comes behind it is not one more piece. -/
theorem eq_map_of_flatMap {p : α → List Char} {q : β → List Char} {r s : List Char}
    (piece : ∀ a ∈ as, ∀ b ∈ bs, ∀ r s, p a ++ r = q b ++ s → b = g a ∧ r = s)
    (endsHere : ∀ b ∈ bs, ∀ more, r ≠ q b ++ more) (endsThere : ∀ a ∈ as, ∀ more, p a ++ more ≠ s)
    (same : as.flatMap p ++ r = bs.flatMap q ++ s) : bs = as.map g ∧ r = s := by
  induction as generalizing bs with
  | nil =>
      cases bs with
      | nil => exact ⟨rfl, same⟩
      | cons b bs =>
          rw [List.flatMap_cons, List.append_assoc] at same
          exact absurd same (endsHere b List.mem_cons_self _)
  | cons a as ih =>
      cases bs with
      | nil =>
          rw [List.flatMap_cons, List.append_assoc] at same
          exact absurd same (endsThere a List.mem_cons_self _)
      | cons b bs =>
          simp only [List.flatMap_cons, List.append_assoc] at same
          obtain ⟨isImage, goesOn⟩ := piece a List.mem_cons_self b List.mem_cons_self _ _ same
          obtain ⟨areImages, sameRest⟩ := ih
            (fun a ha b hb => piece a (List.mem_cons_of_mem _ ha) b (List.mem_cons_of_mem _ hb))
            (fun b hb => endsHere b (List.mem_cons_of_mem _ hb))
            (fun a ha => endsThere a (List.mem_cons_of_mem _ ha)) goesOn
          exact ⟨by rw [isImage, areImages, List.map_cons], sameRest⟩

end Pieces

namespace Ir

/-- The text may stand between commas, and between brackets. -/
structure IsItem (text : String) : Prop where
  some : text ≠ ""
  noComma : ',' ∉ text.toList
  noBracket : ')' ∉ text.toList

theorem IsItem.append {before text : String} (item : IsItem before) (noComma : ',' ∉ text.toList)
    (noBracket : ')' ∉ text.toList) : IsItem (before ++ text) where
  some := fun isEmpty => item.some (String.append_eq_empty_iff.mp isEmpty).1
  noComma := by simp [item.noComma, noComma]
  noBracket := by simp [item.noBracket, noBracket]

theorem commaSeparated_append {texts : List String} (some : texts ≠ []) :
    (commaSeparated texts).toList ++ [',', ' '] =
      texts.flatMap fun text => text.toList ++ [',', ' '] := by
  induction texts with
  | nil => contradiction
  | cons text texts ih =>
      cases texts with
      | nil => simp [commaSeparated]
      | cons next texts =>
          have goesOn := ih (List.cons_ne_nil _ _)
          rw [List.flatMap_cons, ← goesOn]
          simp [commaSeparated]

theorem commaSeparated_ne_empty {text : String} {texts : List String} (item : IsItem text) :
    commaSeparated (text :: texts) ≠ "" := by
  intro isEmpty
  have behind := commaSeparated_append (List.cons_ne_nil text texts)
  rw [isEmpty, List.flatMap_cons, List.append_assoc] at behind
  obtain ⟨blank, -⟩ := eq_of_append_stop List.not_mem_nil item.noComma behind
  exact item.some (String.toList_injective blank.symm)

theorem bracket_not_mem_commaSeparated {texts : List String} (items : ∀ text ∈ texts, IsItem text) :
    ')' ∉ (commaSeparated texts).toList := by
  intro mem
  by_cases some : texts = []
  · subst some
    contradiction
  · have behind : ')' ∈ (commaSeparated texts).toList ++ [',', ' '] := List.mem_append_left _ mem
    rw [commaSeparated_append some, List.mem_flatMap] at behind
    obtain ⟨text, isText, mem⟩ := behind
    simp [(items text isText).noBracket] at mem

section Lists

variable {α β : Type} {g : α → β} {as : List α} {bs : List β} {p : α → String} {q : β → String}
  (item : ∀ a ∈ as, ∀ b ∈ bs, p a = q b → b = g a)
  (here : ∀ a ∈ as, IsItem (p a)) (there : ∀ b ∈ bs, IsItem (q b))
include item here there

/-- A list with commas is known item by item. -/
theorem eq_map_of_commaSeparated
    (same : commaSeparated (as.map p) = commaSeparated (bs.map q)) : bs = as.map g := by
  cases as with
  | nil =>
      cases bs with
      | nil => rfl
      | cons b bs => exact absurd same.symm (commaSeparated_ne_empty (there b List.mem_cons_self))
  | cons a as =>
      cases bs with
      | nil => exact absurd same (commaSeparated_ne_empty (here a List.mem_cons_self))
      | cons b bs =>
          -- With a comma behind the last item too, every item shows where it ends.
          have pieces := congrArg (fun text : String => text.toList ++ [',', ' ']) same
          simp only [commaSeparated_append, List.map_eq_nil_iff, reduceCtorEq, not_false_eq_true,
            ne_eq, List.flatMap_map] at pieces
          rw [← List.append_nil (List.flatMap _ (a :: as)),
            ← List.append_nil (List.flatMap _ (b :: bs))] at pieces
          refine (eq_map_of_flatMap ?_ ?_ ?_ pieces).1
          · intro a ha b hb r s sameHere
            simp only [List.append_assoc, List.cons_append] at sameHere
            obtain ⟨sameItem, sameRest⟩ :=
              eq_of_append_stop (here a ha).noComma (there b hb).noComma sameHere
            exact ⟨item a ha b hb (String.toList_injective sameItem), by simpa using sameRest⟩
          · simp
          · simp

/-- So is one in brackets, whatever comes behind it. -/
theorem eq_map_of_bracketed {r s : List Char}
    (same : (commaSeparated (as.map p)).toList ++ ')' :: r =
      (commaSeparated (bs.map q)).toList ++ ')' :: s) : bs = as.map g ∧ r = s := by
  have items : ∀ text ∈ as.map p, IsItem text := List.forall_mem_map.mpr here
  have items' : ∀ text ∈ bs.map q, IsItem text := List.forall_mem_map.mpr there
  obtain ⟨sameItems, sameRest⟩ := eq_of_append_stop (bracket_not_mem_commaSeparated items)
    (bracket_not_mem_commaSeparated items') same
  exact ⟨eq_map_of_commaSeparated item here there (String.toList_injective sameItems), sameRest⟩

end Lists

end Ir

end Reckon
