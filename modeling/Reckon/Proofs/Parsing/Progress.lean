import Reckon.Proofs.Parsing.Moves
import Reckon.Proofs.Reading.Delivery

/-! # Every parse ends further on

The functions of the parser call each other and themselves, and the end of input gives the same
token forever. They come to an end all the same: no chain of calls is longer than `Parser.depth`,
so that it does not matter what would answer below. What a call leaves ahead is the rest of what was
ahead of it, and if it gave a result, a token was taken.
-/

namespace Reckon

namespace Parser

/-- What the parser does is the only solution of its recursion. -/
theorem Calls.unfold_eq_iff {c : Calls} : c.unfold = c ↔ c = whole := by
  refine ⟨fun fixed => eq_of_settling fun depth => ?_, fun same => same ▸ unfold_whole⟩
  have h := settling.within_iterate depth c whole
  rw [Function.iterate_fixed fixed, iterate_unfold_whole] at h
  exact ⟨whole, h, settling.whole depth⟩

/-- From here these calls give what the parser gives, at whatever function they start. -/
structure Calls.Answer (c : Calls) (p : Parser) : Prop where
  expression : c.expression p = Parser.expression p
  prototype : c.prototype p = Parser.prototype p
  declaration : c.declaration p = Parser.declaration p
  definition : c.definition p = Parser.definition p
  form : c.form p = Parser.form p

/-- Below the depth of the parser nothing is called. -/
theorem answer_unfold {p : Parser} {depth : Nat} (enough : p.depth ≤ depth) (bottom : Calls) :
    (Calls.unfold^[depth] bottom).Answer p := by
  have h := settling.within_iterate depth bottom Calls.whole
  rw [Calls.iterate_unfold_whole] at h
  have some : 2 * p.left + 2 ≤ depth := Nat.le_trans (Nat.le_succ _) enough
  have few : p.left ≤ depth := by omega
  exact {
    expression := (h.expression p some).1
    prototype := (h.prototype p few).1
    declaration := (h.declaration p few trivial).1
    definition := (h.definition p some trivial).1
    form := (h.form p some trivial).1 }

/-- What is ahead is the rest of what was, and a lexer that delivered it has only read on. -/
structure Onward (p q : Parser) : Prop where
  suffix : q.feed.events <:+ p.feed.events
  delivered : ∀ lexer : Lexer, lexer.feed = p.feed →
    ∃ reads, ((fun l : Lexer => l.next.2)^[reads] lexer).feed = q.feed

theorem feed_leaves_advance (p : Parser) : (leaves advance p).feed = p.feed.next.2 := by
  cases read : p.feed.next with
  | mk result feed => cases result <;> simp [leaves, advance, read]

theorem Moves.onward {p q : Parser} (h : Moves p q) : Onward p q where
  suffix := h.events_suffix
  delivered := by
    induction h with
    | refl => exact fun lexer same => ⟨0, same⟩
    | @read p _ _ ih =>
        intro lexer same
        have next : lexer.next.2.feed = (leaves advance p).feed := by
          rw [lexer.next_feed.2, same, feed_leaves_advance]
        obtain ⟨reads, later⟩ := ih lexer.next.2 next
        exact ⟨reads + 1, later⟩

theorem Forward.onward {α : Type} {x : Parse α} (h : Forward x) (p : Parser) :
    Onward p (leaves x p) := by
  have moves : Moves p (leaves x p) :=
    ((h p).mono (fun _ _ reads => reads.moves) fun _ _ stopped => stopped.moves).holds_leaves
  exact moves.onward

/-- Parsing ends, and further on. The functions of the parser are the only solution of a recursion
    without a bound: from wherever they start and whatever the operators are, it does not matter
    what answers their calls below a depth that the tokens left give. The events that a call leaves
    are the last of those that it found. A token was taken by an expression, a prototype or a form
    that was read; and at a word that announces a form, by every form that was asked for, unless
    the source failed. -/
theorem calls_end_further_on (p : Parser) :
    ((∀ c : Calls, c.unfold = c ↔ c = Calls.whole) ∧
      ∀ (bottom : Calls) (depth : Nat), p.depth ≤ depth →
        (Calls.unfold^[depth] bottom).Answer p) ∧
    (Onward p (leaves expression p) ∧ Onward p (leaves prototype p) ∧
      Onward p (leaves declaration p) ∧ Onward p (leaves definition p) ∧
      Onward p (leaves form p)) ∧
    (∀ e q, expression p = .ok e q → q.left < p.left) ∧
    (∀ d q, prototype p = .ok d q → q.left < p.left) ∧
    (∀ f q, form p = .ok f q → q.left < p.left) ∧
    ∀ e q, p.current = .define ∨ p.current = .declare → form p = .error e q →
      (∀ reason, e ≠ .read (.failed reason)) → q.left < p.left := by
  refine ⟨⟨fun _ => Calls.unfold_eq_iff, fun bottom _ enough => answer_unfold enough bottom⟩, ?_,
    fun _ _ read => (expression_left p).of_ok read, fun _ _ read => (prototype_left p).of_ok read,
    fun _ _ read => (form_left p).of_ok read, ?_⟩
  · exact ⟨expression_forward.onward p, prototype_forward.onward p, declaration_forward.onward p,
      definition_forward.onward p, form_forward.onward p⟩
  · intro e q announced failed notSource
    have isToken : p.current ≠ .eof := by rcases announced with here | here <;> simp [here]
    rcases (form_takes isToken).of_error failed with less | ⟨-, stuck⟩
    · exact less
    · obtain ⟨reason, isSource⟩ := stuck announced
      exact absurd isSource (notSource reason)

end Parser

end Reckon
