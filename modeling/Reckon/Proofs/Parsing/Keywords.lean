import Reckon.Proofs.Parsing.Moves

/-! # What a form reads on from

Once a form is under way it reads on from no word that announces a form: it stops there, and
whatever becomes of it, the word is still the current token. And where it ends well, the token
before the current one is one that can end a form, so never an operator or a `;`.
-/

namespace Reckon.Parser

variable {p q : Parser} {e : ParseError}

/-- The token announces no form. -/
abbrev Spared (t : Token) : Prop := t.isKeyword = false

/-- Reading on from no keyword. -/
abbrev sparing : Judgement := reading Spared fun t inner => by
  cases t with
  | ident _ | number _ | char _ => rfl
  | _ => contradiction

theorem current_of_advance_error (run : advance p = .error e q) : q.current = p.current := by
  rcases p.advance_cases with ⟨t, events, -, run'⟩ | ⟨text, events, -, run'⟩ | ⟨-, -, run'⟩ |
    ⟨reason, -, -, run'⟩
  all_goals cases run.symm.trans run'
  · rfl
  · rfl

/-- A keyword is no current token where a read from another token failed. -/
theorem StoppedFrom.isKeyword_eq_false {reason : ReadError}
    (h : StoppedFrom Spared p (.read reason) q) : q.current.isKeyword = false := by
  obtain ⟨r, -, ⟨spared, run⟩ | ⟨-, notRead⟩⟩ := h
  · rw [current_of_advance_error run]
    exact spared
  · exact absurd rfl (notRead reason)

/-- A form that no keyword announces reads on from none. -/
theorem form_spares (other : p.current.isKeyword = false) :
    Ensures form p (fun _ => ReadsFrom Spared p) (StoppedFrom Spared p) :=
  ((sparing.whole _).form p (Nat.le_refl _) other).mono (fun _ _ read => read.1) fun _ _ bad => bad

/-- Behind the keyword that announces it, a form reads on from no other. -/
def SparesBehind (x : Parse α) (p : Parser) : Prop :=
  Ensures x p (fun _ r => ∃ q, advance p = .ok () q ∧ ReadsFrom Spared q r)
    fun e r => advance p = .error e r ∨ ∃ q, advance p = .ok () q ∧ StoppedFrom Spared q e r

theorem sparesBehind_of_advance {x : Parse α} (p : Parser)
    (rest : ∀ q, Ensures x q (fun _ => ReadsFrom Spared q) (StoppedFrom Spared q)) :
    SparesBehind (do advance; x) p := by
  have first : Ensures advance p (fun _ q => advance p = .ok () q) fun e q =>
      advance p = .error e q := .intro (fun _ _ run => run) fun _ _ run => run
  refine Ensures.bind (first.mono (fun _ _ run => run) fun _ _ run => .inl run) fun _ q run => ?_
  exact (rest q).mono (fun _ _ reads => ⟨q, run, reads⟩) fun _ _ bad => .inr ⟨q, run, bad⟩

theorem form_spares_announced (announced : p.current.isKeyword = true) : SparesBehind form p := by
  apply ensures_peek
  split
  · refine .map (sparesBehind_of_advance p fun q => ?_)
    have behind := (sparing.whole _).signed q (Nat.le_refl _)
    exact behind.mono (fun _ _ read => read.1) fun _ _ bad => bad
  · refine .map (sparesBehind_of_advance p fun q => ?_)
    have behind := (sparing.whole _).prototype q (Nat.le_refl _)
    exact behind.mono (fun _ _ read => read.1) fun _ _ bad => bad
  · next notDefine notDeclare =>
    cases here : p.current with
    | define => exact absurd here notDefine
    | declare => exact absurd here notDeclare
    | _ =>
        rw [here] at announced
        contradiction

/-- The last read of a form is from a token that can end it. -/
theorem form_closes {f : Form} (read : form p = .ok f q) :
    ∃ r, Moves p r ∧ r.current.closes = true ∧ advance r = .ok () q := by
  have ended := (readingOn.whole _).form p (Nat.le_refl _) trivial
  obtain ⟨-, ⟨r, onto, closes, -, run⟩, -⟩ := ended.of_ok read
  have reads : ReadsFrom (fun _ => True) p r := onto
  exact ⟨r, reads.reads.moves, closes, run⟩

end Reckon.Parser
