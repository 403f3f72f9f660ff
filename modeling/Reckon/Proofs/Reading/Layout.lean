import Mathlib.Data.List.Induction
import Reckon.Proofs.Reading.Delivery
import Reckon.Proofs.Reading.Encoding
import Reckon.Proofs.Spelling
import Reckon.Proofs.Text.Classes

/-! # Layout does not matter

However tokens are laid out, they are read back: what stands between two of them may be any white
space, line breaks and comments, as long as there is something. White space cuts a text into parts
that are cut into lexemes on their own, so it does not matter which characters it is, nor that the
lexer reads by lines and drops line breaks and comments before it looks at them: all of it comes to
cutting the whole text at once, with its comments taken out.
-/

namespace Reckon

namespace Lexeme

variable {w : Char} {text rest : List Char}

theorem takeWhile_append_stop {p : Char → Bool} (stops : p w = false) (text rest : List Char) :
    (text ++ w :: rest).takeWhile p = text.takeWhile p ∧
      (text ++ w :: rest).dropWhile p = text.dropWhile p ++ w :: rest := by
  induction text with
  | nil => simp [stops]
  | cons c text ih =>
      cases here : p c with
      | true => simp [here, ih]
      | false => simp [here]

theorem cutNumber_append (white : isWhite w = true) (text rest : List Char) :
    cutNumber (text ++ w :: rest) = ((cutNumber text).1, (cutNumber text).2 ++ w :: rest) := by
  have stops := takeWhile_append_stop (isDecimalDigit_of_isWhite white)
  have noPoint : w ≠ '.' := ne_of_class white rfl
  simp only [cutNumber, (stops text rest).1, (stops text rest).2]
  cases text.dropWhile isDecimalDigit with
  | nil => simp [noPoint]
  | cons c behind =>
      by_cases point : c = '.'
      · subst point
        simp [stops behind rest]
      · simp [point]

theorem startsNumber_append (white : isWhite w = true) (c : Char) (text rest : List Char) :
    startsNumber c (text ++ w :: rest) = startsNumber c text := by
  cases text with
  | nil => simp [startsNumber, isDecimalDigit_of_isWhite white]
  | cons first text => rfl

theorem cut_append (white : isWhite w = true) (c : Char) (text rest : List Char) :
    cut c (text ++ w :: rest) = ((cut c text).1, (cut c text).2 ++ w :: rest) := by
  have stops := takeWhile_append_stop (isAsciiAlphanumeric_of_isWhite white) text rest
  have number := cutNumber_append white (c :: text) rest
  rw [List.cons_append] at number
  simp only [cut, stops.1, stops.2, startsNumber_append white, number]
  split
  · rfl
  · split
    · rfl
    · split <;> rfl

theorem cut_white (white : isWhite w = true) (rest : List Char) : cut w rest = (none, rest) := by
  have noPoint : w ≠ '.' := ne_of_class white rfl
  have noNumber : startsNumber w rest = false := by
    simp [startsNumber, isDecimalDigit_of_isWhite white, noPoint]
  simp [cut, isAsciiLetter_of_isWhite white, noNumber, white]

theorem ofText_white (white : isWhite w = true) (rest : List Char) :
    ofText (w :: rest) = ofText rest := by
  rw [ofText, cut_white white]
  rfl

/-- White space cuts a text into two that are cut into lexemes on their own. -/
theorem ofText_append (white : isWhite w = true) (text rest : List Char) :
    ofText (text ++ w :: rest) = ofText text ++ ofText rest := by
  induction text using ofText.induct with
  | case1 =>
      rw [List.nil_append, ofText_white white, ofText]
      rfl
  | case2 c text ih =>
      rw [List.cons_append, ofText, ofText, cut_append white, ih, List.append_assoc]

end Lexeme

/-- The text without its comments, which end in front of a line feed. -/
def uncommented : List Char → List Char
  | [] => []
  | c :: rest =>
    if c = '#' then uncommented (rest.dropWhile (· != '\n')) else c :: uncommented rest
termination_by text => text.length
decreasing_by
  · exact Nat.lt_succ_of_le (Lexeme.length_dropWhile_le _ rest)
  · exact Nat.lt_succ_self _

section Comments

variable {text rest : List Char}

theorem uncommented_append (noComment : '#' ∉ text) (rest : List Char) :
    uncommented (text ++ rest) = text ++ uncommented rest := by
  induction text with
  | nil => rfl
  | cons c text ih =>
      rw [List.mem_cons, not_or] at noComment
      rw [List.cons_append, uncommented, if_neg (Ne.symm noComment.1), ih noComment.2,
        List.cons_append]

/-- What does not break the line is a part of it up to its comment; a comment ends where the line
    does. -/
theorem uncommented_line (noBreak : '\n' ∉ text) (rest : List Char)
    (breaks : rest.dropWhile (· != '\n') = rest) :
    uncommented (text ++ rest) = text.takeWhile (· != '#') ++ uncommented rest := by
  induction text with
  | nil => rfl
  | cons c text ih =>
      rw [List.mem_cons, not_or] at noBreak
      by_cases comment : c = '#'
      · have inLine : ∀ c ∈ text, (c != '\n') = true := fun c mem =>
          bne_iff_ne.mpr (ne_of_mem_of_not_mem mem noBreak.2)
        subst comment
        rw [List.cons_append, uncommented, if_pos rfl, List.dropWhile_append_of_pos inLine, breaks]
        rfl
      · rw [List.cons_append, uncommented, if_neg comment, ih noBreak.2,
          List.takeWhile_cons_of_pos (by simpa using comment), List.cons_append]

theorem uncommented_comment (noBreak : '\n' ∉ text) (rest : List Char) :
    uncommented ('#' :: (text ++ '\n' :: rest)) = '\n' :: uncommented rest := by
  have noBreak : '\n' ∉ '#' :: text := by simpa using noBreak
  rw [← List.cons_append, uncommented_line noBreak ('\n' :: rest) rfl, uncommented,
    if_neg (by decide)]
  rfl

/-- White space behind a line holds no lexemes. -/
theorem ofText_takeWhile_append {c : Char} (white : isWhite c = true) (text : List Char) :
    Lexeme.ofText ((text ++ [c]).takeWhile (· != '#')) =
      Lexeme.ofText (text.takeWhile (· != '#')) := by
  by_cases comment : '#' ∈ text
  · obtain ⟨before, behind, rfl, -⟩ := List.eq_append_cons_of_mem comment
    have stops := Lexeme.takeWhile_append_stop (w := '#') (p := (· != '#')) rfl before
    rw [List.append_assoc, List.cons_append, (stops _).1, (stops _).1]
  · have noComment : ∀ c ∈ text, (c != '#') = true := fun c mem =>
      bne_iff_ne.mpr (ne_of_mem_of_not_mem mem comment)
    have notHash : c ≠ '#' := ne_of_class white rfl
    rw [List.takeWhile_append_of_pos noComment, List.takeWhile_eq_self_iff.mpr noComment,
      List.takeWhile_cons_of_pos (by simpa using notHash), List.takeWhile_nil,
      Lexeme.ofText_append white text [], Lexeme.ofText, List.append_nil]

/-- Line breaks at the end of a line hold no lexemes. -/
theorem ofText_lineContent (text : List Char) :
    Lexeme.ofText (lineContent text) = Lexeme.ofText (text.takeWhile (· != '#')) := by
  induction text using List.reverseRecOn with
  | nil => rfl
  | append_singleton text c ih =>
      by_cases breaks : c = '\n' ∨ c = '\r'
      · have white : isWhite c = true := by
          rcases breaks with rfl | rfl <;> decide
        have dropped : lineContent (text ++ [c]) = lineContent text := by
          rcases breaks with rfl | rfl <;> simp [lineContent]
        rw [dropped, ih, ofText_takeWhile_append white]
      · have kept : lineContent (text ++ [c]) = (text ++ [c]).takeWhile (· != '#') := by
          simp [lineContent, not_or.mp breaks]
        rw [kept]

/-- Line by line the lexemes are those of the whole text with its comments taken out. -/
theorem flatMap_lexemes (text : List Char) :
    ((text.splitOn '\n').flatMap fun line => Lexeme.ofText (lineContent line)) =
      Lexeme.ofText (uncommented text) := by
  induction text using pieces_induction '\n' with
  | last line noBreak =>
      have whole := uncommented_line noBreak [] rfl
      rw [List.append_nil, uncommented, List.append_nil] at whole
      rw [splitOn_of_not_mem noBreak, List.flatMap_singleton, ofText_lineContent, whole]
  | next line rest noBreak ih =>
      have whole := uncommented_line noBreak ('\n' :: rest) rfl
      rw [uncommented, if_neg (by decide)] at whole
      rw [splitOn_append noBreak, List.flatMap_cons, ih, ofText_lineContent, whole,
        Lexeme.ofText_append (by decide)]

end Comments

/-- White space, line breaks and comments. -/
inductive Layout : List Char → Prop where
  | nil : Layout []
  | white {c : Char} {rest : List Char} : isWhite c = true → Layout rest → Layout (c :: rest)
  | comment {text rest : List Char} : '\n' ∉ text → Layout rest →
      Layout ('#' :: (text ++ '\n' :: rest))

/-- The ways to spell a token. A number has the value of its digits, scaled down by as many places
    as it has behind the point. -/
inductive Spells : Token → List Char → Prop where
  | define : Spells .define "def".toList
  | declare : Spells .declare "extern".toList
  | ident {name : String} : isIdentifier name = true → Spells (.ident name) name.toList
  | whole {digits : List Char} : digits ≠ [] → (∀ c ∈ digits, isAsciiDigit c = true) →
      Spells (.number (.ofDecimal false ⟨Lexeme.digitsValue digits, 0⟩)) digits
  | fraction {whole places : List Char} : whole ++ places ≠ [] →
      (∀ c ∈ whole ++ places, isAsciiDigit c = true) →
      Spells (.number (.ofDecimal false ⟨Lexeme.digitsValue (whole ++ places), -places.length⟩))
        (whole ++ '.' :: places)
  | mark {c : Char} : isWhite c = false → isAsciiLetter c = false → isDecimalDigit c = false →
      c ≠ '#' → Spells (.char c) [c]

/-- The tokens are written one after the other, with layout behind each that may be empty only
    behind the last one. -/
inductive Written : List Token → List Char → Prop where
  | nil : Written [] []
  | cons {token : Token} {tokens : List Token} {word gap rest : List Char} : Spells token word →
      Layout gap → (gap ≠ [] ∨ tokens = []) → Written tokens rest →
      Written (token :: tokens) (word ++ (gap ++ rest))

theorem ofText_layout {gap : List Char} (layout : Layout gap) (rest : List Char) :
    Lexeme.ofText (uncommented (gap ++ rest)) = Lexeme.ofText (uncommented rest) := by
  induction layout with
  | nil => rfl
  | white white _ ih =>
      rw [List.cons_append, uncommented, if_neg (ne_of_class white rfl),
        Lexeme.ofText_white white, ih]
  | comment noBreak _ ih =>
      rw [List.cons_append, List.append_assoc, List.cons_append, uncommented_comment noBreak,
        Lexeme.ofText_white (by decide), ih]

theorem uncommented_layout {gap : List Char} (layout : Layout gap) (some : gap ≠ [])
    (rest : List Char) :
    ∃ w behind, isWhite w = true ∧ uncommented (gap ++ rest) = w :: behind := by
  cases layout with
  | nil => contradiction
  | @white c gap white _ =>
      refine ⟨c, uncommented (gap ++ rest), white, ?_⟩
      rw [List.cons_append, uncommented, if_neg (ne_of_class white rfl)]
  | @comment text gap noBreak _ =>
      refine ⟨'\n', uncommented (gap ++ rest), by decide, ?_⟩
      rw [List.cons_append, List.append_assoc, List.cons_append, uncommented_comment noBreak]

namespace Lexeme

variable {c : Char} {text rest : List Char}

theorem ofText_word (letter : isAsciiLetter c = true)
    (others : rest.all isAsciiAlphanumeric = true) : ofText (c :: rest) = [word (c :: rest)] := by
  have all : ∀ c ∈ rest, isAsciiAlphanumeric c = true := List.all_eq_true.mp others
  have taken : rest.takeWhile isAsciiAlphanumeric = rest := List.takeWhile_eq_self_iff.mpr all
  have left : rest.dropWhile isAsciiAlphanumeric = [] := List.dropWhile_eq_nil_iff.mpr all
  rw [ofText, cut, if_pos letter, taken, left, ofText]
  rfl

theorem ofText_number (letter : isAsciiLetter c = false) (starts : startsNumber c rest = true)
    (whole : cutNumber (c :: rest) = (c :: rest, [])) :
    ofText (c :: rest) = [number (c :: rest)] := by
  simp [ofText, cut, letter, starts, whole]

theorem cutNumber_digits {digits : List Char} (all : ∀ c ∈ digits, isDecimalDigit c = true) :
    cutNumber digits = (digits, []) := by
  simp [cutNumber, List.takeWhile_eq_self_iff.mpr all, List.dropWhile_eq_nil_iff.mpr all]

theorem ofText_digits {digits : List Char} (nonempty : digits ≠ [])
    (all : ∀ c ∈ digits, isAsciiDigit c = true) : ofText digits = [number digits] := by
  obtain ⟨c, rest, rfl⟩ := List.exists_cons_of_ne_nil nonempty
  have decimal := fun d mem => isDecimalDigit_of_isAsciiDigit (all d mem)
  have first := decimal c List.mem_cons_self
  refine ofText_number first.2 ?_ (cutNumber_digits fun d mem => (decimal d mem).1)
  rw [startsNumber, first.1, Bool.true_or]

theorem cutNumber_fraction {whole places : List Char}
    (all : ∀ c ∈ whole ++ places, isDecimalDigit c = true) :
    cutNumber (whole ++ '.' :: places) = (whole ++ '.' :: places, []) := by
  rw [List.forall_mem_append] at all
  have stops := takeWhile_append_stop (w := '.') (p := isDecimalDigit) (by decide) whole places
  rw [List.takeWhile_eq_self_iff.mpr all.1, List.dropWhile_eq_nil_iff.mpr all.1] at stops
  simp [cutNumber, stops, List.takeWhile_eq_self_iff.mpr all.2, List.dropWhile_eq_nil_iff.mpr all.2]

theorem ofText_fraction {whole places : List Char} (nonempty : whole ++ places ≠ [])
    (all : ∀ c ∈ whole ++ places, isAsciiDigit c = true) :
    ofText (whole ++ '.' :: places) = [number (whole ++ '.' :: places)] := by
  have decimal := fun d mem => isDecimalDigit_of_isAsciiDigit (all d mem)
  have cut := cutNumber_fraction fun d mem => (decimal d mem).1
  cases whole with
  | nil =>
      obtain ⟨d, places, rfl⟩ := List.exists_cons_of_ne_nil nonempty
      refine ofText_number rfl ?_ cut
      simp [startsNumber, (decimal d List.mem_cons_self).1]
  | cons c whole =>
      have first := decimal c List.mem_cons_self
      refine ofText_number first.2 ?_ cut
      rw [startsNumber, first.1, Bool.true_or]

theorem value?_digits {digits : List Char} (all : ∀ c ∈ digits, isAsciiDigit c = true) :
    value? digits = some (.ofDecimal false ⟨digitsValue digits, 0⟩) := by
  have noPoint : ∀ c ∈ digits, (c != '.') = true := fun c mem =>
    bne_iff_ne.mpr (ne_of_class (all c mem) rfl)
  have allowed : (digits.all fun c => isAsciiDigit c || c == '.') = true :=
    List.all_eq_true.mpr fun c mem => by rw [all c mem, Bool.true_or]
  rw [value?, if_pos allowed, List.dropWhile_eq_nil_iff.mpr noPoint,
    List.filter_eq_self.mpr noPoint]
  rfl

theorem value?_fraction {whole places : List Char}
    (all : ∀ c ∈ whole ++ places, isAsciiDigit c = true) :
    value? (whole ++ '.' :: places) =
      some (.ofDecimal false ⟨digitsValue (whole ++ places), -places.length⟩) := by
  have noPoint : ∀ c ∈ whole ++ places, (c != '.') = true := fun c mem =>
    bne_iff_ne.mpr (ne_of_class (all c mem) rfl)
  have allowed : ((whole ++ '.' :: places).all fun c => isAsciiDigit c || c == '.') = true := by
    refine List.all_eq_true.mpr fun c mem => ?_
    rw [Bool.or_eq_true, beq_iff_eq]
    rcases List.mem_append.mp mem with before | behind
    · exact .inl (all c (List.mem_append_left _ before))
    · rcases List.mem_cons.mp behind with same | behind
      · exact .inr same
      · exact .inl (all c (List.mem_append_right _ behind))
  have digits : (whole ++ '.' :: places).filter (· != '.') = whole ++ places := by
    rw [List.filter_append, List.filter_cons_of_neg (by decide), ← List.filter_append,
      List.filter_eq_self.mpr noPoint]
  have point : (whole ++ '.' :: places).dropWhile (· != '.') = '.' :: places := by
    rw [List.forall_mem_append] at noPoint
    rw [List.dropWhile_append_of_pos noPoint.1, List.dropWhile_cons_of_neg (by decide)]
  rw [value?, if_pos allowed, point, digits]
  rfl

end Lexeme

theorem exists_cons_of_isIdentifier {name : String} (isName : isIdentifier name = true) :
    ∃ first rest, name.toList = first :: rest ∧ isAsciiLetter first = true ∧
      rest.all isAsciiAlphanumeric = true ∧ name ≠ "def" ∧ name ≠ "extern" := by
  unfold isIdentifier at isName
  split at isName
  · contradiction
  · next first rest isText =>
    simp only [Bool.and_eq_true, bne_iff_ne] at isName
    exact ⟨first, rest, isText, isName.1.1.1, isName.1.1.2, isName.1.2, isName.2⟩

/-- Every spelling is one lexeme, and it makes the token. -/
theorem spells_lexeme {token : Token} {word : List Char} (spells : Spells token word) :
    '#' ∉ word ∧ ∃ lexeme, Lexeme.ofText word = [lexeme] ∧ lexeme.token = .ok token := by
  cases spells with
  | define => exact ⟨by decide, _, Lexeme.ofText_word (by decide) (by decide), rfl⟩
  | declare => exact ⟨by decide, _, Lexeme.ofText_word (by decide) (by decide), rfl⟩
  | @ident name isName =>
      obtain ⟨first, rest, isText, letter, others, notDef, notExtern⟩ :=
        exists_cons_of_isIdentifier isName
      refine ⟨fun mem => ?_, .word name.toList, ?_, ?_⟩
      · rw [isText, List.mem_cons] at mem
        rcases mem with rfl | mem
        · contradiction
        · exact not_mem_of_class (List.all_eq_true.mp others) rfl mem
      · rw [isText, Lexeme.ofText_word letter others]
      · rw [Lexeme.token, String.ofList_toList, Token.ofWord, if_neg notDef, if_neg notExtern]
  | whole nonempty all =>
      refine ⟨not_mem_of_class all rfl, _, Lexeme.ofText_digits nonempty all, ?_⟩
      rw [Lexeme.token, Lexeme.value?_digits all]
  | @fraction whole places nonempty all =>
      refine ⟨?_, _, Lexeme.ofText_fraction nonempty all, ?_⟩
      · have noComment : '#' ∉ whole ++ places := not_mem_of_class all rfl
        simpa using noComment
      · rw [Lexeme.token, Lexeme.value?_fraction all]
  | @mark c noWhite noLetter noDigit noComment =>
      refine ⟨by simpa using noComment.symm, .mark c, ?_, rfl⟩
      simp [Lexeme.ofText, Lexeme.cut, Lexeme.startsNumber, noWhite, noLetter, noDigit]

theorem written_lexemes {tokens : List Token} {text : List Char} (written : Written tokens text) :
    (Lexeme.ofText (uncommented text)).map Lexeme.token = tokens.map .ok := by
  induction written with
  | nil =>
      rw [uncommented, Lexeme.ofText]
      rfl
  | @cons token tokens word gap rest spells layout separated written ih =>
      obtain ⟨noComment, lexeme, isLexeme, isToken⟩ := spells_lexeme spells
      rw [uncommented_append noComment]
      by_cases none : gap = []
      · obtain rfl := separated.resolve_left fun some => some none
        cases written
        simp [none, uncommented, isLexeme, isToken]
      · obtain ⟨w, behind, white, cut⟩ := uncommented_layout layout none rest
        have others := ofText_layout layout rest
        rw [cut, Lexeme.ofText_white white] at others
        rw [cut, Lexeme.ofText_append white, isLexeme, others, List.map_append, ih]
        simp [isToken]

theorem tokensOfLexemes_of_ok {lexemes : List Lexeme} {tokens : List Token}
    (lexes : lexemes.map Lexeme.token = tokens.map .ok) :
    tokensOfLexemes lexemes = (tokens, none) := by
  induction lexemes generalizing tokens with
  | nil =>
      cases tokens with
      | nil => rfl
      | cons token tokens => contradiction
  | cons lexeme lexemes ih =>
      cases tokens with
      | nil => contradiction
      | cons token tokens =>
          obtain ⟨first, others⟩ := List.cons.inj lexes
          simp only [tokensOfLexemes, first, ih others]

theorem flatMap_eventsOfLine {lines : List (List UInt8)} {tokens : List Token}
    (lexes : (lines.flatMap fun line => Lexeme.ofText (lineContent (Utf8.decode line))).map
      Lexeme.token = tokens.map .ok) :
    lines.flatMap eventsOfLine = tokens.map .token := by
  induction lines generalizing tokens with
  | nil =>
      cases tokens with
      | nil => rfl
      | cons token tokens => contradiction
  | cons line lines ih =>
      rw [List.flatMap_cons, List.map_append] at lexes
      obtain ⟨here, later, rfl, lexesHere, lexesLater⟩ := List.append_eq_map_iff.mp lexes
      have cut : tokensOfLine line = (here, none) := tokensOfLexemes_of_ok lexesHere.symm
      rw [List.flatMap_cons, ih lexesLater.symm, List.map_append, eventsOfLine, cut]
      rfl

/-- Tokens that are written out one by one, with any layout in front and behind each of them, are
    read back, and then the end of input, however often one reads on. -/
theorem Lexer.reads_written {tokens : List Token} {gap text : List Char} (layout : Layout gap)
    (written : Written tokens text) (count : Nat) :
    (Lexer.ofSource (Source.ofString (String.ofList (gap ++ text)))).reads count =
      (tokens.map .ok)[count]?.getD (.ok .eof) := by
  let source := Source.ofString (String.ofList (gap ++ text))
  have lexes : ((source.bytes.splitOn lineFeed).flatMap fun line =>
      Lexeme.ofText (lineContent (Utf8.decode line))).map Lexeme.token = tokens.map .ok := by
    rw [← written_lexemes written, ← ofText_layout layout, ← flatMap_lexemes,
      ← Utf8.decode_ofString (gap ++ text), decode_splitOn, List.flatMap_map]
  have events : source.feed.events = tokens.map .token := by
    rw [← flatMap_eventsOfLine lexes, ← Source.flatMap_splitLines]
    rfl
  rw [Lexer.reads_eq]
  change source.feed.reads count = _
  rw [Feed.reads, events, List.map_map]
  rfl

/-- A comment parts the name from the point, which is a token of its own, since white space parts
    it from the number that starts with a point. -/
theorem Lexer.reads_written_point :
    ∃ lexer, lexer = Lexer.ofSource (Source.ofString "x#y\n. .5\r\n1") ∧
      lexer.reads 0 = .ok (.ident "x") ∧ lexer.reads 1 = .ok (.char '.') ∧
      lexer.reads 2 = .ok (.number ⟨0x3FE0000000000000⟩) ∧
      lexer.reads 3 = .ok (.number ⟨0x3FF0000000000000⟩) ∧
      lexer.reads 4 = .ok .eof ∧ lexer.reads 5 = .ok .eof := by
  have half : Spells (.number ⟨0x3FE0000000000000⟩) ['.', '5'] := by
    have value : Double.ofDecimal false ⟨Lexeme.digitsValue ([] ++ ['5']), -(['5'].length : Nat)⟩ =
        ⟨0x3FE0000000000000⟩ := by decide +kernel
    exact value ▸ @Spells.fraction [] ['5'] (List.cons_ne_nil _ _)
      (List.forall_mem_singleton.mpr rfl)
  have one : Spells (.number ⟨0x3FF0000000000000⟩) ['1'] := by
    have value : Double.ofDecimal false ⟨Lexeme.digitsValue ['1'], 0⟩ = ⟨0x3FF0000000000000⟩ := by
      decide +kernel
    exact value ▸ @Spells.whole ['1'] (List.cons_ne_nil _ _) (List.forall_mem_singleton.mpr rfl)
  have comment : Layout ['#', 'y', '\n'] := @Layout.comment ['y'] [] (by decide) .nil
  have lineBreak : Layout ['\r', '\n'] := .white rfl (.white rfl .nil)
  have written : Written [.ident "x", .char '.', .number ⟨0x3FE0000000000000⟩,
      .number ⟨0x3FF0000000000000⟩] ("x".toList ++ (['#', 'y', '\n'] ++ (['.'] ++ ([' '] ++
        (['.', '5'] ++ (['\r', '\n'] ++ (['1'] ++ ([] ++ [])))))))) :=
    .cons (.ident rfl) comment (.inl (by decide)) <|
      .cons (.mark rfl rfl rfl (by decide)) (.white rfl .nil) (.inl (by decide)) <|
        .cons half lineBreak (.inl (by decide)) <| .cons one .nil (.inr rfl) .nil
  have reads := Lexer.reads_written .nil written
  exact ⟨_, rfl, reads 0, reads 1, reads 2, reads 3, reads 4, reads 5⟩

end Reckon
