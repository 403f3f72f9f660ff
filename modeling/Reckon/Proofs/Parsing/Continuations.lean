import Reckon.Proofs.Parsing.Moves

/-! # Input that goes on

What the parser does before its events run out it does as well when more of them come behind, and
it comes to the same, unless it reads once more than there is. Then the parser that has more makes
that read too, and goes on from what the read finds. So two runs, one over the beginning of what
the other is over, differ from the first read behind the beginning on, and not before.
-/

namespace Reckon.Parser

/-- The parser with more behind its events, in place of their ending. -/
def before (p : Parser) (behind : Feed) : Parser :=
  { p with feed := ⟨p.feed.events ++ behind.events, behind.ending⟩ }

theorem left_before (p : Parser) (behind : Feed) :
    (p.before behind).left = p.left + behind.events.length := by
  simp only [left, before, List.length_append]
  exact Nat.add_right_comm _ _ _

/-- A read that finds an event finds it as well when more come behind. -/
theorem advance_before {p : Parser} (more : p.feed.events ≠ []) (behind : Feed) :
    Ensures advance p (fun _ q => advance (p.before behind) = .ok () (q.before behind))
      fun e q => advance (p.before behind) = .error e (q.before behind) := by
  obtain ⟨current, ⟨_ | ⟨_ | text, events⟩, ending⟩, table⟩ := p
  · contradiction
  · rfl
  · rfl

/-- From `p` the step comes to a read at `q`: it goes on from what the read leaves, and fails as the
    read does if that fails. -/
structure ComesTo (x : Parse α) (p q : Parser) : Prop where
  reads : Reads p q
  goesOn : Moves (leaves advance q) (leaves x p)
  fails : ∀ e r, advance q = .error e r → x p = .error e r

namespace ComesTo

variable {p q r : Parser} {x y : Parse α}

theorem congr (h : ComesTo y p q) (same : x p = y p) : ComesTo x p q := by
  have left : leaves x p = leaves y p := by simp only [leaves, same]
  exact ⟨h.reads, left ▸ h.goesOn, fun e r failed => same.trans (h.fails e r failed)⟩

theorem bind {f : α → Parse β} (h : ComesTo x p q)
    (rest : ∀ a r, x p = .ok a r → Moves r (leaves (f a) r)) : ComesTo (x >>= f) p q := by
  refine ⟨h.reads, h.goesOn.trans ?_, fun e r failed => bind_of_error (h.fails e r failed)⟩
  cases run : x p with
  | ok a r =>
      have left : leaves (x >>= f) p = leaves (f a) r := by simp only [leaves, bind_of_ok run]
      exact leaves_of_ok run ▸ left ▸ rest a r run
  | error e r =>
      rw [leaves_of_error run, leaves_of_error (bind_of_error run)]
      exact .refl r

theorem after {f : α → Parse β} {a : α} (h : ComesTo (f a) q r) (run : x p = .ok a q)
    (reads : Reads p q) : ComesTo (x >>= f) p r := by
  have left : leaves (x >>= f) p = leaves (f a) q := by simp only [leaves, bind_of_ok run]
  exact ⟨reads.trans h.reads, left ▸ h.goesOn,
    fun e r' failed => (bind_of_ok run).trans (h.fails e r' failed)⟩

end ComesTo

/-- Where two runs are of which the one has more to read: still at the same place, or each by itself
    since a read behind the end of the shorter input. -/
inductive Stage where
  | together (p : Parser)
  | alone (p : Parser)

namespace Stage

def parser : Stage → Parser
  | together p => p
  | alone p => p

/-- A read of both, which splits them where nothing is left of the shorter input, or of one. -/
inductive Reads (behind : Feed) : Stage → Stage → Prop where
  | together {p q : Parser} : advance p = .ok () q →
    advance (p.before behind) = .ok () (q.before behind) → Reads behind (together p) (together q)
  | ending {p q : Parser} : advance p = .ok () q → Reads behind (together p) (alone q)
  | goingOn {p q : Parser} : advance (p.before behind) = .ok () q →
    Reads behind (together p) (alone q)
  | alone {p q : Parser} : advance p = .ok () q → Reads behind (alone p) (alone q)

end Stage

/-- The steps come to the same, the one where the events of `p` end and the other where they go on,
    or each makes one read more than there are events and then goes on by itself. -/
inductive Follows (behind : Feed) (x y : Parse α) (p : Parser) (ok : α → Stage → Prop) : Prop where
  | ok (a : α) (q : Parser) :
    x p = .ok a q → y (p.before behind) = .ok a (q.before behind) →
    Reads p q → Reads (p.before behind) (q.before behind) → ok a (.together q) →
    Follows behind x y p ok
  | error (e : ParseError) (q : Parser) :
    x p = .error e q → y (p.before behind) = .error e (q.before behind) → Follows behind x y p ok
  | beyond (q : Parser) : q.feed.events = [] → ComesTo x p q →
    ComesTo y (p.before behind) (q.before behind) → (∀ a r, x p = .ok a r → ok a (.alone r)) →
    (∀ a r, y (p.before behind) = .ok a r → ok a (.alone r)) → Follows behind x y p ok

/-- A step that is by itself reads. -/
def Roams (x : Parse α) (p : Parser) (ok : α → Stage → Prop) : Prop :=
  Ensures x p (fun a q => Moves p q ∧ ok a (.alone q)) fun _ => Moves p

theorem Roams.moves {x : Parse α} {p : Parser} {ok : α → Stage → Prop} (h : Roams x p ok) :
    Moves p (leaves x p) :=
  (Ensures.mono h (fun _ _ good => good.1) fun _ _ bad => bad).holds_leaves

theorem Roams.bind {x : Parse α} {f : α → Parse β} {p : Parser} {mid : α → Stage → Prop}
    {ok : β → Stage → Prop} (first : Roams x p mid)
    (rest : ∀ a q, mid a (.alone q) → Roams (f a) q ok) : Roams (x >>= f) p ok := by
  refine Ensures.bind first fun a q ⟨moves, holds⟩ => ?_
  exact (rest a q holds).mono (fun _ _ ⟨more, good⟩ => ⟨moves.trans more, good⟩)
    fun _ _ more => moves.trans more

theorem Roams.congr {x y : Parse α} {p : Parser} {ok : α → Stage → Prop} (h : Roams y p ok)
    (same : x p = y p) : Roams x p ok := by
  simpa only [Roams, Ensures, same] using h

theorem Roams.advance (behind : Feed) (p : Parser) :
    Roams advance p fun _ => Stage.Reads behind (.alone p) :=
  .intro (fun _ _ run => ⟨.of_advance run, .alone run⟩)
    fun _ q run => .read (leaves_of_error run ▸ .refl q)

theorem Roams.ok_of_bind {x : Parse α} {f : α → Parse β} {p q : Parser} {b : β}
    {ok : β → Stage → Prop} (rest : ∀ a r, x p = .ok a r → Roams (f a) r ok)
    (ended : (x >>= f) p = .ok b q) : ok b (.alone q) := by
  cases run : x p with
  | ok a r => exact ((rest a r run).of_ok ((bind_of_ok run).symm.trans ended)).2
  | error e r => cases (bind_of_error run).symm.trans ended

namespace Follows

variable {behind : Feed} {x x' y y' : Parse α} {p : Parser} {ok : α → Stage → Prop}

theorem congr (h : Follows behind x y p ok) (alone : x' p = x p)
    (all : y' (p.before behind) = y (p.before behind)) : Follows behind x' y' p ok := by
  cases h with
  | ok a q run run' reads reads' holds =>
      exact .ok a q (alone.trans run) (all.trans run') reads reads' holds
  | error e q run run' => exact .error e q (alone.trans run) (all.trans run')
  | beyond q none comes comes' holds holds' =>
      exact .beyond q none (comes.congr alone) (comes'.congr all)
        (fun a r run => holds a r (alone ▸ run)) fun a r run => holds' a r (all ▸ run)

theorem bind {f g : α → Parse β} {mid : α → Stage → Prop} {ok : β → Stage → Prop}
    (first : Follows behind x y p mid)
    (rest : ∀ a q, mid a (.together q) → Follows behind (f a) (g a) q ok)
    (roams : ∀ a q, mid a (.alone q) → Roams (f a) q ok ∧ Roams (g a) q ok) :
    Follows behind (x >>= f) (y >>= g) p ok := by
  cases first with
  | ok a q run run' reads reads' holds =>
      cases rest a q holds with
      | ok b r more more' further further' good =>
          exact .ok b r ((bind_of_ok run).trans more) ((bind_of_ok run').trans more')
            (reads.trans further) (reads'.trans further') good
      | error e r more more' =>
          exact .error e r ((bind_of_ok run).trans more) ((bind_of_ok run').trans more')
      | beyond r none comes comes' good good' =>
          exact .beyond r none (comes.after run reads) (comes'.after run' reads')
            (fun b s ended => good b s ((bind_of_ok run).symm.trans ended))
            fun b s ended => good' b s ((bind_of_ok run').symm.trans ended)
  | error e q run run' => exact .error e q (bind_of_error run) (bind_of_error run')
  | beyond q none comes comes' holds holds' =>
      have onward : ∀ a r, x p = .ok a r → Roams (f a) r ok := fun a r run =>
        (roams a r (holds a r run)).1
      have onward' : ∀ a r, y (p.before behind) = .ok a r → Roams (g a) r ok := fun a r run =>
        (roams a r (holds' a r run)).2
      refine .beyond q none (comes.bind fun a r run => (onward a r run).moves)
        (comes'.bind fun a r run => (onward' a r run).moves) ?_ ?_
      · exact fun b s ended => Roams.ok_of_bind onward ended
      · exact fun b s ended => Roams.ok_of_bind onward' ended

theorem advance (behind : Feed) (p : Parser) :
    Follows behind advance advance p fun _ => Stage.Reads behind (.together p) := by
  by_cases none : p.feed.events = []
  · exact .beyond p none ⟨.refl p, .refl _, fun _ _ failed => failed⟩
      ⟨.refl _, .refl _, fun _ _ failed => failed⟩ (fun _ _ run => .ending run)
      fun _ _ run => .goingOn run
  · have same := advance_before none behind
    cases run : Parser.advance p with
    | ok _ q =>
        have run' := same.of_ok run
        exact .ok () q run run' (.read run (.refl q)) (.read run' (.refl _)) (.together run run')
    | error e q => exact .error e q run (same.of_error run)

end Follows

/-- A step from the beginning of an input, and from there with more behind. -/
def continuing (behind : Feed) : Judgement where
  Place := Stage
  token s := s.parser.current
  ahead
    | .together p => (p.before behind).feed.events.length
    | .alone p => p.feed.events.length
  Reads := Stage.Reads behind
  MayRead _ := True
  loops := .same Stage.parser
  Holds s x y ok := match s with
    | .together p => Follows behind x y p ok
    | .alone p => Roams x p ok ∧ Roams y p ok
  ahead_of_reads reads := by
    cases reads with
    | together _ run => exact left_of_advance run
    | @ending p q run =>
        refine Nat.le_trans (left_of_advance run) ?_
        simp only [before, List.length_append, Nat.le_add_right]
    | goingOn run => exact left_of_advance run
    | alone run => exact left_of_advance run
  mayRead_of_isInner _ := trivial
  pure {_ s _ _} holds := by
    cases s with
    | together p => exact .ok _ p rfl rfl (.refl p) (.refl _) holds
    | alone p => exact ⟨⟨.refl p, holds⟩, .refl p, holds⟩
  fail {_ s _ _} notRead := by
    cases s with
    | together p => exact .error _ p rfl rfl
    | alone p => exact ⟨.refl p, .refl p⟩
  bind {_ _ s _ _ _ _ _ _} first rest := by
    cases s with
    | together p =>
        exact first.bind (fun a q holds => rest a _ holds) fun a q holds => rest a _ holds
    | alone p =>
        exact ⟨first.1.bind fun a q holds => (rest a _ holds).1,
          first.2.bind fun a q holds => (rest a _ holds).2⟩
  peek {_ s _ _ _} _ h := by
    cases s with
    | together p => exact h.congr rfl rfl
    | alone p => exact h
  atOperator {_ s admits _ _ _ _ _ _} same quiet goesOn := by
    subst same
    rcases operator?_cases s.parser admits with none | ⟨op, a, seen, admitted⟩
    · cases s with
      | together p => exact quiet.congr (atOperator_of_not none) (atOperator_of_not none)
      | alone p =>
          exact ⟨quiet.1.congr (atOperator_of_not none), quiet.2.congr (atOperator_of_not none)⟩
    · have taken := goesOn op a a ⟨seen, rfl⟩ admitted admitted
      cases s with
      | together p =>
          exact taken.congr (atOperator_of_operator seen admitted)
            (atOperator_of_operator seen admitted)
      | alone p =>
          exact ⟨taken.1.congr (atOperator_of_operator seen admitted),
            taken.2.congr (atOperator_of_operator seen admitted)⟩
  advance {s} _ := by
    cases s with
    | together p => exact Follows.advance behind p
    | alone p => exact ⟨.advance behind p, .advance behind p⟩

/-- The step comes to the same whether the events of `p` end or go on, or it makes one read more
    than there are events. -/
inductive Alike (behind : Feed) (x : Parse α) (p : Parser) : Prop where
  | ok (a : α) (q : Parser) :
    x p = .ok a q → x (p.before behind) = .ok a (q.before behind) → Alike behind x p
  | error (e : ParseError) (q : Parser) :
    x p = .error e q → x (p.before behind) = .error e (q.before behind) → Alike behind x p
  | beyond (q : Parser) : q.feed.events = [] → ComesTo x p q →
    ComesTo x (p.before behind) (q.before behind) → Alike behind x p

/-- A form depends on nothing but the tokens that it reads. -/
theorem form_alike (behind : Feed) (p : Parser) : Alike behind form p := by
  have followed : Follows behind form form p _ :=
    ((continuing behind).whole _).form (.together p) (Nat.le_refl _) trivial
  cases followed with
  | ok a q run run' _ _ _ => exact .ok a q run run'
  | error e q run run' => exact .error e q run run'
  | beyond q none comes comes' _ _ => exact .beyond q none comes comes'

end Reckon.Parser
