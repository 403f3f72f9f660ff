import Reckon.Proofs.Parsing.Judgements

/-! # The depth of the parser is enough

The functions of the parser count down a depth so that they are plain recursions. Before any of
them calls itself it takes a token, so twice the tokens left and a little more is enough, and what
the parser does at `Parser.depth` it does at any greater depth. Taken together, the functions with
enough depth are then a solution of their recursion without one: `Calls.whole`. So a judgement
holds of them wherever they start.
-/

namespace Reckon.Parser

variable {p q : Parser}

/-- A read takes a token or a number without a value off the feed, or meets its ending. -/
theorem advance_cases (p : Parser) :
    (∃ token events, p.feed.events = .token token :: events ∧
      advance p = .ok () { p with current := token, feed := { p.feed with events } }) ∨
    (∃ text events, p.feed.events = .invalidNumber text :: events ∧
      advance p = .error (.read (.invalidNumber text)) { p with feed := { p.feed with events } }) ∨
    (p.feed.events = [] ∧ p.feed.ending = .finished ∧
      advance p = .ok () { p with current := .eof }) ∨
    (∃ reason, p.feed.events = [] ∧ p.feed.ending = .failed reason ∧
      advance p = .error (.read (.failed reason)) p) := by
  obtain ⟨current, ⟨events, ending⟩, table⟩ := p
  cases events with
  | nil =>
      cases ending with
      | finished => exact .inr (.inr (.inl ⟨rfl, rfl, rfl⟩))
      | failed reason => exact .inr (.inr (.inr ⟨reason, rfl, rfl, rfl⟩))
  | cons event events =>
      cases event with
      | token token => exact .inl ⟨token, events, rfl, rfl⟩
      | invalidNumber text => exact .inr (.inl ⟨text, events, rfl, rfl⟩)

theorem left_of_advance (run : advance p = .ok () q) : q.left ≤ p.feed.events.length := by
  rcases p.advance_cases with ⟨token, events, here, run'⟩ | ⟨text, events, -, run'⟩ |
    ⟨-, -, run'⟩ | ⟨reason, -, -, run'⟩
  all_goals cases run.symm.trans run'
  · have room : (if token = .eof then 0 else 1) ≤ 1 := by split <;> omega
    rw [here, List.length_cons]
    exact Nat.add_le_add_left room _
  · exact Nat.le_refl _

/-- The first step does what the second does. -/
def settling : Judgement where
  Place := Parser
  token := current
  ahead p := p.feed.events.length
  Reads p q := advance p = .ok () q
  MayRead _ := True
  loops := .same fun p => p
  Holds p x y ok := x p = y p ∧ Ensures y p ok fun _ _ => True
  ahead_of_reads := left_of_advance
  mayRead_of_isInner _ := trivial
  pure holds := ⟨rfl, holds⟩
  fail _ := ⟨rfl, trivial⟩
  bind first rest := by
    refine ⟨Ensures.bind_congr first.1 first.2 fun a q holds => (rest a q holds).1, ?_⟩
    exact first.2.bind fun a q holds => (rest a q holds).2
  peek _ h := h
  atOperator {_ p admits _ _ _ _ _ _} same quiet goesOn := by
    subst same
    rcases operator?_cases p admits with none | ⟨op, precedence, seen, admitted⟩
    · simpa only [Ensures, atOperator_of_not none] using quiet
    · have taken := goesOn op _ _ ⟨seen, rfl⟩ admitted admitted
      simpa only [Ensures, atOperator_of_operator seen admitted] using taken
  advance _ := ⟨rfl, .intro (fun _ _ run => run) fun _ _ _ => trivial⟩

def operand : Parse Expr := fun p => operandWithin p.depth p

def arguments : Parse (List Expr) := fun p => argumentsWithin p.depth p

/-- The operators after an operand, as far as their precedence is at least `least`. -/
def operatorsFrom (least : Int32) (left : Expr) : Parse Expr := fun p => climb p.depth least left p

/-- Names up to the first token that is none. -/
def nameList : Parse (List String) := fun p => names (p.feed.events.length + 1) p

namespace Calls

/-- The calls that the parser makes. -/
def whole : Calls :=
  ⟨Parser.expression, Parser.operand, Parser.arguments, operatorsFrom, nameList⟩

/-- Two depths that are enough do the same. -/
theorem settled {depth more more' : Nat} (le : depth ≤ more) (le' : depth ≤ more') :
    settling.Within depth (within more) (within more') := by
  obtain ⟨further, rfl⟩ := Nat.exists_eq_add_of_le' le
  obtain ⟨further', rfl⟩ := Nat.exists_eq_add_of_le' le'
  rw [← iterate_within, ← iterate_within]
  exact settling.within_iterate depth _ _

theorem whole_within (depth : Nat) : settling.Within depth whole (within depth) where
  expression p enough :=
    (settled (Nat.le_succ (2 * p.left + 2)) enough).expression p (Nat.le_refl _)
  operand p enough := by
    have bound : 2 * p.left + 1 ≤ p.depth := by unfold Parser.depth; omega
    exact (settled bound enough).operand p (Nat.le_refl _)
  arguments p enough := (settled (Nat.le_refl p.depth) enough).arguments p (Nat.le_refl _)
  climb p _ _ left enough same := by
    have bound : 2 * p.left + 1 ≤ p.depth := by unfold Parser.depth; omega
    exact (settled bound enough).climb p left (Nat.le_refl _) same
  names p enough _ :=
    (settled (Nat.le_refl (p.feed.events.length + 1)) enough).names p (Nat.lt_succ_self _) trivial

theorem eq_of_settling {c c' : Calls}
    (same : ∀ depth, ∃ d, settling.Within depth c d ∧ settling.Within depth c' d) : c = c' := by
  ext1
  · funext p
    obtain ⟨d, h, h'⟩ := same (2 * p.left + 2)
    exact (h.expression p (Nat.le_refl _)).1.trans (h'.expression p (Nat.le_refl _)).1.symm
  · funext p
    obtain ⟨d, h, h'⟩ := same (2 * p.left + 1)
    exact (h.operand p (Nat.le_refl _)).1.trans (h'.operand p (Nat.le_refl _)).1.symm
  · funext p
    obtain ⟨d, h, h'⟩ := same (2 * p.left + 3)
    exact (h.arguments p (Nat.le_refl _)).1.trans (h'.arguments p (Nat.le_refl _)).1.symm
  · funext least left p
    obtain ⟨d, h, h'⟩ := same (2 * p.left + 1)
    exact (h.climb p left (Nat.le_refl _) rfl).1.trans (h'.climb p left (Nat.le_refl _) rfl).1.symm
  · funext p
    obtain ⟨d, h, h'⟩ := same (p.feed.events.length + 1)
    exact (h.names p (Nat.le_refl _) trivial).1.trans (h'.names p (Nat.le_refl _) trivial).1.symm

/-- What the parser does is a solution of its recursion. -/
theorem unfold_whole : whole.unfold = whole := by
  refine eq_of_settling fun depth => ?_
  cases depth with
  | zero => exact ⟨whole, settling.within_iterate 0 _ _, settling.within_iterate 0 _ _⟩
  | succ depth =>
      exact ⟨within (depth + 1), (whole_within depth).unfold, whole_within (depth + 1)⟩

theorem iterate_unfold_whole (depth : Nat) : unfold^[depth] whole = whole :=
  Function.iterate_fixed unfold_whole depth

end Calls

/-- Whatever a judgement says of steps, it says of the functions of the parser. -/
theorem Judgement.whole {J : Judgement} (depth : Nat) : J.Within depth Calls.whole Calls.whole := by
  have h := J.within_iterate depth Calls.whole Calls.whole
  rwa [Calls.iterate_unfold_whole] at h

end Reckon.Parser
