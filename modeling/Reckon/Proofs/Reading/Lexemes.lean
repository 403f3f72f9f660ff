import Mathlib.Data.List.DropRight
import Mathlib.Data.List.Forall2
import Reckon.Proofs.Reading.Layout

/-! # Lexemes are the longest there are

What the lexemes of a text are can be said without saying how they are found: from left to right
the text is white space and lexemes, a word or a number is the longest one that stands where it
starts, and any other character that is not white space is a lexeme of its own. There is just one
such cut, and it is the one that is made of every line; nothing of the line but white space is lost,
and the tokens are those of the lexemes up to the first number that has no value.
-/

namespace Reckon

def IsWordText (text : List Char) : Prop := ∀ c ∈ text, isAsciiAlphanumeric c = true

/-- Digits of any script, with at most one point and not without a digit. -/
inductive IsNumberText : List Char → Prop where
  | digits {whole : List Char} : whole ≠ [] → (∀ c ∈ whole, isDecimalDigit c = true) →
      IsNumberText whole
  | point {whole places : List Char} : whole ≠ [] → (∀ c ∈ whole, isDecimalDigit c = true) →
      (∀ c ∈ places, isDecimalDigit c = true) → IsNumberText (whole ++ '.' :: places)
  | places {places : List Char} : places ≠ [] → (∀ c ∈ places, isDecimalDigit c = true) →
      IsNumberText ('.' :: places)

/-- The text starts with a digit, or with a point and a digit. -/
inductive OpensNumber : List Char → Prop where
  | digit {c : Char} {rest : List Char} : isDecimalDigit c = true → OpensNumber (c :: rest)
  | point {c : Char} {rest : List Char} : isDecimalDigit c = true → OpensNumber ('.' :: c :: rest)

/-- Of a text, the longest part that it starts with and that has the property, and what is behind
    it. -/
structure IsLongest (P : List Char → Prop) (text behind : List Char) : Prop where
  holds : P text
  longest : ∀ other, other <+: text ++ behind → P other → other.length ≤ text.length

namespace Lexeme

def text : Lexeme → List Char
  | word text | number text => text
  | mark c => [c]

/-- The lexeme is the first one of a text, and this is behind it. -/
inductive StandsBefore : Lexeme → List Char → Prop where
  | word {c : Char} {rest behind : List Char} : isAsciiLetter c = true →
      IsLongest IsWordText (c :: rest) behind → StandsBefore (.word (c :: rest)) behind
  | number {number behind : List Char} : OpensNumber (number ++ behind) →
      IsLongest IsNumberText number behind → StandsBefore (.number number) behind
  | mark {c : Char} {behind : List Char} : isWhite c = false → isAsciiLetter c = false →
      ¬OpensNumber (c :: behind) → StandsBefore (.mark c) behind

/-- From left to right the text is white space and lexemes. -/
inductive Cuts : List Char → List Lexeme → Prop where
  | nil : Cuts [] []
  | white {c : Char} {rest : List Char} {lexemes : List Lexeme} : isWhite c = true →
      Cuts rest lexemes → Cuts (c :: rest) lexemes
  | lexeme {lexeme : Lexeme} {behind : List Char} {lexemes : List Lexeme} :
      lexeme.StandsBefore behind → Cuts behind lexemes →
      Cuts (lexeme.text ++ behind) (lexeme :: lexemes)

end Lexeme

section Longest

variable {P : List Char → Prop} {text behind text' behind' : List Char}

theorem IsLongest.unique (first : IsLongest P text behind) (second : IsLongest P text' behind')
    (same : text ++ behind = text' ++ behind') : text = text' ∧ behind = behind' := by
  have here : text' <+: text ++ behind := same ▸ List.prefix_append text' behind'
  have there : text <+: text' ++ behind' := same ▸ List.prefix_append text behind
  have sameLength := Nat.le_antisymm (second.longest text there first.holds)
    (first.longest text' here second.holds)
  exact List.append_inj same sameLength

theorem OpensNumber.not_letter {c : Char} {rest : List Char} (opens : OpensNumber (c :: rest)) :
    isAsciiLetter c = false ∧ isWhite c = false := by
  cases opens with
  | digit digit =>
      constructor
      · rw [← Bool.not_eq_true]
        intro letter
        have alphanumeric : isAsciiAlphanumeric c = true := by simp [isAsciiAlphanumeric, letter]
        have noDigit : isDecimalDigit c = false :=
          of_isAsciiAlphanumeric (P := fun c => isAsciiLetter c = true → isDecimalDigit c = false)
            (by decide) alphanumeric letter
        exact ne_of_class digit noDigit rfl
      · rw [← Bool.not_eq_true]
        intro white
        exact ne_of_class digit (isDecimalDigit_of_isWhite white) rfl
  | point => exact ⟨rfl, rfl⟩

theorem IsNumberText.ne_nil {number : List Char} (isNumber : IsNumberText number) :
    number ≠ [] := by
  cases isNumber with
  | digits some _ => exact some
  | point some _ _ => simp
  | places some _ => simp

theorem IsNumberText.cases_char {number : List Char} (isNumber : IsNumberText number) :
    ∀ c ∈ number, isDecimalDigit c = true ∨ c = '.' := by
  intro c mem
  cases isNumber with
  | digits _ all => exact .inl (all c mem)
  | point _ allWhole allPlaces =>
      rw [List.mem_append, List.mem_cons] at mem
      rcases mem with mem | rfl | mem
      · exact .inl (allWhole c mem)
      · exact .inr rfl
      · exact .inl (allPlaces c mem)
  | places _ all =>
      rcases List.mem_cons.mp mem with rfl | mem
      · exact .inr rfl
      · exact .inl (all c mem)

end Longest

namespace Lexeme

variable {lexeme : Lexeme} {behind rest text : List Char} {lexemes others : List Lexeme} {c : Char}

/-- No lexeme starts with white space. -/
theorem StandsBefore.cons (stands : lexeme.StandsBefore behind) :
    ∃ c rest, lexeme.text = c :: rest ∧ isWhite c = false := by
  cases stands with
  | @word c rest _ letter _ =>
      refine ⟨c, rest, rfl, ?_⟩
      rw [← Bool.not_eq_true]
      intro white
      exact ne_of_class letter (isAsciiLetter_of_isWhite white) rfl
  | @number number _ opens longest =>
      obtain ⟨c, rest, rfl⟩ := List.exists_cons_of_ne_nil longest.holds.ne_nil
      exact ⟨c, rest, rfl, opens.not_letter.2⟩
  | @mark c _ noWhite _ _ => exact ⟨c, [], rfl, noWhite⟩

/-- What a text starts with is the same lexeme however it is found. -/
theorem StandsBefore.unique {other : Lexeme} {behind' : List Char}
    (first : lexeme.StandsBefore behind) (second : other.StandsBefore behind')
    (same : lexeme.text ++ behind = other.text ++ behind') :
    lexeme = other ∧ behind = behind' := by
  cases first with
  | word letter longest =>
      cases second with
      | word _ longest' =>
          obtain ⟨sameText, sameRest⟩ := longest.unique longest' same
          exact ⟨congrArg Lexeme.word sameText, sameRest⟩
      | number opens _ =>
          simp only [Lexeme.text] at same
          rw [← same] at opens
          cases letter.symm.trans opens.not_letter.1
      | mark _ noLetter _ =>
          cases (List.cons.inj same).1
          cases letter.symm.trans noLetter
  | number opens longest =>
      cases second with
      | word letter _ =>
          simp only [Lexeme.text] at same
          rw [same] at opens
          cases letter.symm.trans opens.not_letter.1
      | number _ longest' =>
          obtain ⟨sameText, sameRest⟩ := longest.unique longest' same
          exact ⟨congrArg Lexeme.number sameText, sameRest⟩
      | mark _ _ noNumber =>
          simp only [Lexeme.text] at same
          rw [same] at opens
          exact absurd opens noNumber
  | mark _ noLetter noNumber =>
      cases second with
      | word letter _ =>
          cases (List.cons.inj same).1
          cases letter.symm.trans noLetter
      | number opens _ =>
          simp only [Lexeme.text] at same
          rw [← same] at opens
          exact absurd opens noNumber
      | mark _ _ _ =>
          obtain ⟨rfl, rfl⟩ := List.cons.inj same
          exact ⟨rfl, rfl⟩

theorem Cuts.unique (first : Cuts text lexemes) (second : Cuts text others) :
    lexemes = others := by
  induction first generalizing others with
  | nil =>
      generalize none : ([] : List Char) = text at second
      cases second with
      | nil => rfl
      | white => cases none
      | lexeme stands _ =>
          obtain ⟨c, rest, isText, -⟩ := stands.cons
          rw [isText] at none
          cases none
  | @white c rest lexemes white _ ih =>
      generalize same : c :: rest = text at second
      cases second with
      | nil => cases same
      | white _ cuts =>
          cases same
          exact ih cuts
      | lexeme stands _ =>
          obtain ⟨d, _, isText, noWhite⟩ := stands.cons
          rw [isText] at same
          cases (List.cons.inj same).1
          cases white.symm.trans noWhite
  | @lexeme lexeme behind lexemes stands _ ih =>
      generalize same : lexeme.text ++ behind = text at second
      obtain ⟨d, _, isText, noWhite⟩ := stands.cons
      cases second with
      | nil =>
          rw [isText] at same
          cases same
      | white white _ =>
          rw [isText] at same
          cases (List.cons.inj same).1
          cases white.symm.trans noWhite
      | lexeme stands' cuts =>
          obtain ⟨rfl, rfl⟩ := stands.unique stands' same
          rw [ih cuts]

theorem isLongest_takeWhile (text : List Char) :
    IsLongest IsWordText (text.takeWhile isAsciiAlphanumeric)
      (text.dropWhile isAsciiAlphanumeric) where
  holds _ mem := List.mem_takeWhile_imp mem
  longest := by
    rintro other ⟨more, whole⟩ all
    rw [List.takeWhile_append_dropWhile] at whole
    rw [← whole, List.takeWhile_append_of_pos all, List.length_append]
    exact Nat.le_add_right _ _

theorem cutNumber_append_eq (text : List Char) :
    (cutNumber text).1 ++ (cutNumber text).2 = text := by
  have whole := List.takeWhile_append_dropWhile (p := isDecimalDigit) (l := text)
  unfold cutNumber
  split
  · next rest point =>
    rw [List.append_assoc, List.cons_append, List.takeWhile_append_dropWhile, ← point, whole]
  · exact whole

theorem cutNumber_point {text rest : List Char}
    (point : text.dropWhile isDecimalDigit = '.' :: rest) :
    cutNumber text = (text.takeWhile isDecimalDigit ++ '.' :: rest.takeWhile isDecimalDigit,
      rest.dropWhile isDecimalDigit) := by
  simp only [cutNumber, point]

theorem isPrefix_cutNumber {number : List Char} (isNumber : IsNumberText number)
    (more : List Char) : number <+: (cutNumber (number ++ more)).1 := by
  cases isNumber with
  | digits _ all =>
      unfold cutNumber
      rw [List.takeWhile_append_of_pos all]
      split
      · exact (List.prefix_append _ _).trans (List.prefix_append _ _)
      · exact List.prefix_append _ _
  | @point whole places _ allWhole allPlaces =>
      have stops := takeWhile_append_stop (w := '.') (p := isDecimalDigit) (by decide) whole
        (places ++ more)
      rw [List.takeWhile_eq_self_iff.mpr allWhole, List.dropWhile_eq_nil_iff.mpr allWhole,
        List.nil_append] at stops
      rw [List.append_assoc, List.cons_append, cutNumber_point stops.2, stops.1,
        List.takeWhile_append_of_pos allPlaces, ← List.cons_append, ← List.append_assoc]
      exact List.prefix_append _ _
  | @places places _ all =>
      have point : ('.' :: (places ++ more)).dropWhile isDecimalDigit = '.' :: (places ++ more) :=
        List.dropWhile_cons_of_neg (by decide)
      rw [List.cons_append, cutNumber_point point, List.takeWhile_cons_of_neg (by decide),
        List.takeWhile_append_of_pos all, List.nil_append, ← List.cons_append]
      exact List.prefix_append _ _

theorem isNumberText_cutNumber {text : List Char} (opens : OpensNumber text) :
    IsNumberText (cutNumber text).1 := by
  have digits : ∀ (text : List Char), ∀ c ∈ text.takeWhile isDecimalDigit,
      isDecimalDigit c = true := fun _ _ mem => List.mem_takeWhile_imp mem
  cases opens with
  | @digit c rest digit =>
      have some : (c :: rest).takeWhile isDecimalDigit ≠ [] := by
        rw [List.takeWhile_cons_of_pos digit]
        exact List.cons_ne_nil _ _
      unfold cutNumber
      split
      · exact .point some (digits _) (digits _)
      · exact .digits some (digits _)
  | @point c rest digit =>
      rw [cutNumber, List.takeWhile_cons_of_neg (by decide),
        List.dropWhile_cons_of_neg (by decide)]
      refine .places ?_ (digits _)
      rw [List.takeWhile_cons_of_pos digit]
      exact List.cons_ne_nil _ _

theorem isLongest_cutNumber {text : List Char} (opens : OpensNumber text) :
    IsLongest IsNumberText (cutNumber text).1 (cutNumber text).2 where
  holds := isNumberText_cutNumber opens
  longest := by
    rintro other ⟨more, whole⟩ isNumber
    rw [cutNumber_append_eq] at whole
    rw [← whole]
    exact (isPrefix_cutNumber isNumber more).length_le

theorem startsNumber_iff {c : Char} {rest : List Char} :
    startsNumber c rest = true ↔ OpensNumber (c :: rest) := by
  constructor
  · intro starts
    simp only [startsNumber, Bool.or_eq_true, Bool.and_eq_true, beq_iff_eq] at starts
    rcases starts with digit | ⟨rfl, digit⟩
    · exact .digit digit
    · cases rest with
      | nil => contradiction
      | cons d rest => exact .point digit
  · rintro (digit | digit)
    · simp [startsNumber, digit]
    · simp [startsNumber, digit]

/-- A cut takes white space off, or the lexeme that a text starts with. -/
theorem cut_cases (c : Char) (rest : List Char) :
    (isWhite c = true ∧ cut c rest = (none, rest)) ∨
    ∃ lexeme behind, cut c rest = (some lexeme, behind) ∧ lexeme.text ++ behind = c :: rest ∧
      lexeme.StandsBefore behind := by
  unfold cut
  split
  · next letter =>
    have alphanumeric : isAsciiAlphanumeric c = true := by simp [isAsciiAlphanumeric, letter]
    have longest := isLongest_takeWhile (c :: rest)
    rw [List.takeWhile_cons_of_pos alphanumeric, List.dropWhile_cons_of_pos alphanumeric] at longest
    refine .inr ⟨_, _, rfl, ?_, .word letter longest⟩
    simp only [Lexeme.text, List.cons_append, List.takeWhile_append_dropWhile]
  · next noLetter =>
    rw [Bool.not_eq_true] at noLetter
    split
    · next starts =>
      have opens := startsNumber_iff.mp starts
      have whole := cutNumber_append_eq (c :: rest)
      exact .inr ⟨_, _, rfl, whole, .number (whole.symm ▸ opens) (isLongest_cutNumber opens)⟩
    · next noNumber =>
      split
      · next white => exact .inl ⟨white, rfl⟩
      · next noWhite =>
        rw [Bool.not_eq_true] at noWhite
        exact .inr ⟨_, _, rfl, rfl, .mark noWhite noLetter fun opens =>
          noNumber (startsNumber_iff.mpr opens)⟩

theorem cuts_ofText (text : List Char) : Cuts text (ofText text) := by
  induction text using ofText.induct with
  | case1 =>
      rw [ofText]
      exact .nil
  | case2 c rest ih =>
      rw [ofText]
      rcases cut_cases c rest with ⟨white, isCut⟩ | ⟨lexeme, behind, isCut, whole, stands⟩
      · rw [isCut] at ih ⊢
        exact .white white ih
      · rw [isCut] at ih ⊢
        rw [← whole]
        exact .lexeme stands ih

theorem cuts_iff : Cuts text lexemes ↔ lexemes = ofText text :=
  ⟨fun cuts => cuts.unique (cuts_ofText text), fun same => same ▸ cuts_ofText text⟩

theorem StandsBefore.not_white (stands : lexeme.StandsBefore behind) :
    ∀ c ∈ lexeme.text, isWhite c = false := by
  intro c mem
  rw [← Bool.not_eq_true]
  intro white
  cases stands with
  | word _ longest =>
      exact ne_of_class (longest.holds c mem) (isAsciiAlphanumeric_of_isWhite white) rfl
  | number _ longest =>
      rcases longest.holds.cases_char c mem with digit | rfl
      · exact ne_of_class digit (isDecimalDigit_of_isWhite white) rfl
      · contradiction
  | mark noWhite _ _ =>
      rw [List.mem_singleton.mp mem, noWhite] at white
      contradiction

/-- The characters of the lexemes, in order, are all that is not white space. -/
theorem Cuts.flatMap_text (cuts : Cuts text lexemes) :
    lexemes.flatMap Lexeme.text = text.filter fun c => !isWhite c := by
  induction cuts with
  | nil => rfl
  | white white _ ih => rw [ih, List.filter_cons_of_neg (by simp [white])]
  | @lexeme lexeme _ _ stands _ ih =>
      have kept : ∀ c ∈ lexeme.text, (!isWhite c) = true := fun c mem => by
        simp [stands.not_white c mem]
      rw [List.flatMap_cons, ih, List.filter_append, List.filter_eq_self.mpr kept]

/-- The lexeme is a number with a digit that is not ASCII. -/
inductive HasForeignDigit : Lexeme → Prop where
  | intro {number : List Char} {c : Char} : c ∈ number → isDecimalDigit c = true →
      isAsciiDigit c = false → HasForeignDigit (.number number)

/-- What lexemes yield: tokens that they spell, up to the first number with a digit that is not
    ASCII, and the text of that number. -/
inductive Yields : List Lexeme → List Token × Option String → Prop where
  | all {lexemes : List Lexeme} {tokens : List Token} :
      (∀ lexeme ∈ lexemes, ¬lexeme.HasForeignDigit) →
      List.Forall₂ (fun token lexeme => Spells token lexeme.text) tokens lexemes →
      Yields lexemes (tokens, none)
  | before {before after : List Lexeme} {number : List Char} {tokens : List Token} :
      (∀ lexeme ∈ before, ¬lexeme.HasForeignDigit) → HasForeignDigit (.number number) →
      List.Forall₂ (fun token lexeme => Spells token lexeme.text) tokens before →
      Yields (before ++ .number number :: after) (tokens, some (String.ofList number))

theorem spells_ofWord {c : Char} {rest : List Char} (letter : isAsciiLetter c = true)
    (isWord : IsWordText (c :: rest)) :
    Spells (Token.ofWord (String.ofList (c :: rest))) (c :: rest) := by
  have back : (String.ofList (c :: rest)).toList = c :: rest := String.toList_ofList
  unfold Token.ofWord
  split
  · next isDef =>
    rw [isDef] at back
    exact back ▸ .define
  · split
    · next isExtern =>
      rw [isExtern] at back
      exact back ▸ .declare
    · next notDef notExtern =>
      have others : rest.all isAsciiAlphanumeric = true :=
        List.all_eq_true.mpr fun d mem => isWord d (List.mem_cons_of_mem c mem)
      have isName : isIdentifier (String.ofList (c :: rest)) = true := by
        simp only [isIdentifier, back, letter, others, Bool.and_eq_true, bne_iff_ne]
        exact ⟨⟨⟨trivial, trivial⟩, notDef⟩, notExtern⟩
      have spells := Spells.ident isName
      rwa [back] at spells

theorem spells_number {number : List Char} (isNumber : IsNumberText number)
    (ascii : ∀ c ∈ number, isDecimalDigit c = true → isAsciiDigit c = true) :
    ∃ value, value? number = some value ∧ Spells (.number value) number := by
  cases isNumber with
  | digits some all =>
      have digits := fun c mem => ascii c mem (all c mem)
      exact ⟨_, value?_digits digits, .whole some digits⟩
  | @point whole places some allWhole allPlaces =>
      have digits : ∀ c ∈ whole ++ places, isAsciiDigit c = true := by
        intro c mem
        rcases List.mem_append.mp mem with mem | mem
        · exact ascii c (List.mem_append_left _ mem) (allWhole c mem)
        · exact ascii c (List.mem_append_right _ (List.mem_cons_of_mem _ mem)) (allPlaces c mem)
      exact ⟨_, value?_fraction digits, .fraction (List.append_ne_nil_of_left_ne_nil some _) digits⟩
  | @places places some all =>
      have digits : ∀ c ∈ [] ++ places, isAsciiDigit c = true :=
        fun c mem => ascii c (List.mem_cons_of_mem _ mem) (all c mem)
      exact ⟨_, value?_fraction digits, .fraction some digits⟩

theorem value?_foreign {number : List Char} (foreign : HasForeignDigit (.number number)) :
    value? number = none := by
  cases foreign with
  | @intro _ c mem digit notAscii =>
      have notPoint : c ≠ '.' := ne_of_class digit (by decide)
      refine if_neg fun all => ?_
      have here := List.all_eq_true.mp all c mem
      simp [notAscii, notPoint] at here

/-- A lexeme spells its token, unless it is a number with a digit that is not ASCII. -/
theorem StandsBefore.token_cases (stands : lexeme.StandsBefore behind)
    (noComment : '#' ∉ lexeme.text) :
    (¬lexeme.HasForeignDigit ∧ ∃ token, lexeme.token = .ok token ∧ Spells token lexeme.text) ∨
    ∃ number, lexeme = .number number ∧ lexeme.HasForeignDigit ∧
      lexeme.token = .error (String.ofList number) := by
  cases stands with
  | word letter longest => exact .inl ⟨by rintro ⟨⟩, _, rfl, spells_ofWord letter longest.holds⟩
  | @number number _ _ longest =>
      by_cases foreign : HasForeignDigit (.number number)
      · refine .inr ⟨number, rfl, foreign, ?_⟩
        simp only [token, value?_foreign foreign]
      · have ascii : ∀ c ∈ number, isDecimalDigit c = true → isAsciiDigit c = true := by
          intro c mem digit
          by_contra notAscii
          exact foreign (.intro mem digit (by simpa using notAscii))
        obtain ⟨value, hasValue, spells⟩ := spells_number longest.holds ascii
        exact .inl ⟨foreign, _, by simp only [token, hasValue], spells⟩
  | @mark c _ noWhite noLetter noNumber =>
      have noDigit : isDecimalDigit c = false := by
        rw [← Bool.not_eq_true]
        exact fun digit => noNumber (.digit digit)
      have notHash : c ≠ '#' := fun same => noComment (by simp [Lexeme.text, same])
      exact .inl ⟨by rintro ⟨⟩, _, rfl, .mark noWhite noLetter noDigit notHash⟩

theorem Cuts.of_mem (cuts : Cuts text lexemes) (mem : lexeme ∈ lexemes) :
    (∃ behind, lexeme.StandsBefore behind) ∧ ∀ c ∈ lexeme.text, c ∈ text := by
  induction cuts with
  | nil => contradiction
  | white _ _ ih =>
      obtain ⟨stands, inside⟩ := ih mem
      exact ⟨stands, fun c here => List.mem_cons_of_mem _ (inside c here)⟩
  | lexeme stands _ ih =>
      rcases List.mem_cons.mp mem with rfl | mem
      · exact ⟨⟨_, stands⟩, fun c here => List.mem_append_left _ here⟩
      · obtain ⟨stands, inside⟩ := ih mem
        exact ⟨stands, fun c here => List.mem_append_right _ (inside c here)⟩

theorem yields_tokensOfLexemes
    (tells : ∀ lexeme ∈ lexemes,
      (¬lexeme.HasForeignDigit ∧ ∃ token, lexeme.token = .ok token ∧ Spells token lexeme.text) ∨
      ∃ number, lexeme = .number number ∧ lexeme.HasForeignDigit ∧
        lexeme.token = .error (String.ofList number)) :
    Yields lexemes (tokensOfLexemes lexemes) := by
  induction lexemes with
  | nil => exact .all (by simp) .nil
  | cons lexeme lexemes ih =>
      have later := ih fun other mem => tells other (List.mem_cons_of_mem _ mem)
      rcases tells lexeme List.mem_cons_self with ⟨ascii, token, isToken, spells⟩ |
        ⟨number, rfl, foreign, refused⟩
      · simp only [tokensOfLexemes, isToken]
        generalize tokensOfLexemes lexemes = yielded at later
        cases later with
        | all asciiLater spellsLater =>
            exact .all (List.forall_mem_cons.mpr ⟨ascii, asciiLater⟩) (.cons spells spellsLater)
        | before asciiLater foreign spellsLater =>
            rw [← List.cons_append]
            exact .before (List.forall_mem_cons.mpr ⟨ascii, asciiLater⟩) foreign
              (.cons spells spellsLater)
      · simp only [tokensOfLexemes, refused]
        exact @Yields.before [] _ _ _ (by simp) foreign .nil

theorem Cuts.yields (cuts : Cuts text lexemes) (noComment : '#' ∉ text) :
    Yields lexemes (tokensOfLexemes lexemes) := by
  refine yields_tokensOfLexemes fun lexeme mem => ?_
  obtain ⟨⟨behind, stands⟩, inside⟩ := cuts.of_mem mem
  exact stands.token_cases fun hash => noComment (inside '#' hash)

/-- ASCII has no digits but its own. -/
theorem Cuts.not_foreign (cuts : Cuts text lexemes) (ascii : ∀ c ∈ text, c.toNat < 128)
    (mem : lexeme ∈ lexemes) : ¬lexeme.HasForeignDigit := by
  rintro ⟨inNumber, digit, notAscii⟩
  have noOther : ∀ n < 128, isDecimalDigit (Char.ofNat n) = true →
      isAsciiDigit (Char.ofNat n) = true := by decide +kernel
  have isAscii := noOther _ (ascii _ ((cuts.of_mem mem).2 _ inNumber))
  rw [Char.ofNat_toNat] at isAscii
  cases (isAscii digit).symm.trans notAscii

end Lexeme

/-- The text of a line up to its first `#`, without line breaks at its end. -/
def beforeComment (text : List Char) : List Char :=
  (text.takeWhile (· != '#')).rdropWhile fun c => c == '\n' || c == '\r'

theorem not_mem_beforeComment (text : List Char) : '#' ∉ beforeComment text := by
  intro mem
  have before := (List.rdropWhile_prefix _ _).subset mem
  simpa using List.mem_takeWhile_imp before

/-- It makes no difference whether line breaks are dropped before the comment is, or after. -/
theorem ofText_beforeComment (text : List Char) :
    Lexeme.ofText (lineContent text) = Lexeme.ofText (beforeComment text) := by
  have noComment : ∀ c ∈ beforeComment text, (c != '#') = true := fun c mem =>
    bne_iff_ne.mpr (ne_of_mem_of_not_mem mem (not_mem_beforeComment text))
  have content : lineContent (text.takeWhile (· != '#')) = beforeComment text := by
    have same : lineContent (text.takeWhile (· != '#')) =
      (beforeComment text).takeWhile (· != '#') := rfl
    rw [same, List.takeWhile_eq_self_iff.mpr noComment]
  have once : (text.takeWhile (· != '#')).takeWhile (· != '#') = text.takeWhile (· != '#') :=
    List.takeWhile_eq_self_iff.mpr fun _ mem => @List.mem_takeWhile_imp _ (· != '#') _ _ mem
  rw [ofText_lineContent, ← content, ofText_lineContent, once]

theorem yields_tokensOfLine (line : List UInt8) :
    Lexeme.Yields (Lexeme.ofText (beforeComment (Utf8.decode line))) (tokensOfLine line) := by
  have yields := (Lexeme.cuts_ofText (beforeComment (Utf8.decode line))).yields
    (not_mem_beforeComment _)
  rw [← ofText_beforeComment] at yields ⊢
  exact yields

/-- A line is cut into lexemes in just one way: each is the longest that starts where it does, and
    white space is all that is in none. What is read of the line are the tokens of its lexemes up
    to the first number with a digit that is not ASCII, which is reported; so a line of ASCII text
    is read whole. -/
theorem Lexer.line_yields_longest_lexemes (line : List UInt8) :
    ∃ content lexemes, content = beforeComment (Utf8.decode line) ∧
      (∀ others, Lexeme.Cuts content others ↔ others = lexemes) ∧
      lexemes.flatMap Lexeme.text = content.filter (fun c => !isWhite c) ∧
      Lexeme.Yields lexemes (tokensOfLine line) ∧
      ((tokensOfLine line).2.isSome = true ↔ ∃ lexeme ∈ lexemes, lexeme.HasForeignDigit) ∧
      ((∀ c ∈ content, c.toNat < 128) → (tokensOfLine line).2 = none) := by
  have cuts := Lexeme.cuts_ofText (beforeComment (Utf8.decode line))
  have yields := yields_tokensOfLine line
  have fails : (tokensOfLine line).2.isSome = true ↔
      ∃ lexeme ∈ Lexeme.ofText (beforeComment (Utf8.decode line)), lexeme.HasForeignDigit := by
    generalize tokensOfLine line = yielded at yields
    generalize Lexeme.ofText (beforeComment (Utf8.decode line)) = lexemes at yields
    cases yields with
    | all ascii _ => simpa using ascii
    | before _ foreign _ => simpa using ⟨_, .inr (.inl rfl), foreign⟩
  refine ⟨_, _, rfl, fun others => Lexeme.cuts_iff, cuts.flatMap_text, yields, fails, ?_⟩
  intro ascii
  by_contra failed
  obtain ⟨lexeme, mem, foreign⟩ := fails.mp (Option.isSome_iff_ne_none.mpr failed)
  exact cuts.not_foreign ascii mem foreign

end Reckon
