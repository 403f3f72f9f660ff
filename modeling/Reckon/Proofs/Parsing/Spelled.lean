import Reckon.Lexer
import Reckon.Proofs.Parsing.Moves

/-! # Every form that is read is spelled

The lexer makes a name of a word only, so the tokens that a source delivers name by identifiers,
and the parser puts no other names into a form. This is what lets statements about compiled forms
speak of spelled forms where a session has the forms of its source.
-/

namespace Reckon

theorem isIdentifier_ofWord {first : Char} {rest : List Char} {name : String}
    (letter : isAsciiLetter first = true) (others : rest.all isAsciiAlphanumeric = true)
    (isName : Token.ofWord (String.ofList (first :: rest)) = .ident name) :
    isIdentifier name = true := by
  unfold Token.ofWord at isName
  split at isName
  · contradiction
  · next notDef =>
    split at isName
    · contradiction
    · next notExtern =>
      cases isName
      simp only [isIdentifier, String.toList_ofList, letter, others, Bool.and_eq_true, bne_iff_ne]
      exact ⟨⟨⟨trivial, trivial⟩, notDef⟩, notExtern⟩

/-- A lexeme that makes a name is a word. -/
theorem Lexeme.isIdentifier_of_mem {text : List Char} {lexeme : Lexeme} {name : String}
    (mem : lexeme ∈ Lexeme.ofText text) (isName : lexeme.token = .ok (.ident name)) :
    isIdentifier name = true := by
  induction text using Lexeme.ofText.induct with
  | case1 =>
      rw [Lexeme.ofText] at mem
      contradiction
  | case2 c rest ih =>
      rw [Lexeme.ofText, List.mem_append] at mem
      rcases mem with first | later
      · unfold Lexeme.cut at first
        split at first
        · next letter =>
          obtain rfl : lexeme = .word (c :: rest.takeWhile isAsciiAlphanumeric) := by
            simpa using first
          have others : (rest.takeWhile isAsciiAlphanumeric).all isAsciiAlphanumeric = true :=
            List.all_takeWhile
          exact isIdentifier_ofWord letter others (Except.ok.inj isName)
        · split at first
          · obtain ⟨number, rfl⟩ : ∃ number, lexeme = .number number := ⟨_, by simpa using first⟩
            simp only [Lexeme.token] at isName
            split at isName <;> cases isName
          · split at first
            · contradiction
            · obtain rfl : lexeme = .mark c := by simpa using first
              cases isName
      · exact ih later

theorem isIdentifier_of_mem_tokensOfLexemes {lexemes : List Lexeme} {name : String}
    (mem : .ident name ∈ (tokensOfLexemes lexemes).1) :
    ∃ lexeme ∈ lexemes, lexeme.token = .ok (.ident name) := by
  induction lexemes with
  | nil => contradiction
  | cons lexeme lexemes ih =>
      cases made : lexeme.token with
      | error text =>
          simp only [tokensOfLexemes, made] at mem
          contradiction
      | ok token =>
          simp only [tokensOfLexemes, made, List.mem_cons] at mem
          rcases mem with rfl | later
          · exact ⟨lexeme, List.mem_cons_self, made⟩
          · obtain ⟨other, hother, isName⟩ := ih later
            exact ⟨other, List.mem_cons_of_mem _ hother, isName⟩

theorem Source.isIdentifier_of_mem_feed {source : Source} {name : String}
    (mem : .token (.ident name) ∈ source.feed.events) : isIdentifier name = true := by
  simp only [Source.feed_eq, List.mem_flatMap, eventsOfLine, List.mem_append, List.mem_map] at mem
  obtain ⟨line, -, invalid | ⟨token, inLine, same⟩⟩ := mem
  · simp at invalid
  · cases same
    obtain ⟨lexeme, mem, isName⟩ := isIdentifier_of_mem_tokensOfLexemes inLine
    exact Lexeme.isIdentifier_of_mem mem isName

namespace Parser

/-- Every name that the parser has ahead of it is an identifier. -/
def Spelled (p : Parser) : Prop :=
  ∀ name, p.current = .ident name ∨ .token (.ident name) ∈ p.feed.events →
    isIdentifier name = true

theorem ofFeed_spelled (source : Source) : (Parser.ofFeed source.feed).Spelled := by
  intro name ahead
  rcases ahead with current | later
  · contradiction
  · exact Source.isIdentifier_of_mem_feed later

theorem Moves.spelled {p q : Parser} (h : Moves p q) (start : p.Spelled) : q.Spelled := by
  refine h.keeps (fun p spelled => ?_) start
  rcases p.advance_cases with ⟨token, events, here, run⟩ | ⟨text, events, here, run⟩ |
    ⟨-, -, run⟩ | ⟨reason, -, -, run⟩
  · rw [leaves_of_ok run]
    rintro name (current | later)
    · have current : token = .ident name := current
      exact spelled name (.inr (here ▸ current ▸ List.mem_cons_self))
    · exact spelled name (.inr (here ▸ List.mem_cons_of_mem _ later))
  · rw [leaves_of_error run]
    rintro name (current | later)
    · exact spelled name (.inl current)
    · exact spelled name (.inr (here ▸ List.mem_cons_of_mem _ later))
  · rw [leaves_of_ok run]
    rintro name (current | later)
    · contradiction
    · exact spelled name (.inr later)
  · rwa [leaves_of_error run]

/-- The step keeps names ahead spelled, and a result has only names that were ahead. -/
def Spells (x : Parse α) (spelled : α → Prop) : Prop :=
  ∀ p, p.Spelled → Ensures x p (fun a p' => spelled a ∧ p'.Spelled) fun _ p' => p'.Spelled

/-- A form that is read from spelled names is spelled, and what is left is spelled too. -/
theorem form_spells : Spells form fun f => f.isSpelled = true := by
  intro p spelled
  have ahead : ∀ {name}, Judgement.Named (J := readingOn) p name → isIdentifier name = true := by
    rintro name ⟨q, onto, here⟩
    have reads : ReadsFrom (fun _ => True) p q := onto
    exact reads.reads.moves.spelled spelled name (.inl here)
  have read := (readingOn.whole _).form p (Nat.le_refl _) trivial
  refine .intro (fun f q run => ?_) fun e q bad => ?_
  · obtain ⟨-, -, named⟩ := read.of_ok run
    refine ⟨Form.isSpelled_of_words fun name mem => ahead (named name mem), ?_⟩
    exact ((form_forward p).of_ok run).moves.spelled spelled
  · exact ((form_forward p).of_error bad).moves.spelled spelled

end Parser

end Reckon
