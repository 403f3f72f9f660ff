import Reckon.Compile
import Reckon.Text.Classes

/-! # Names that a source can spell

A name in a source is a word: an ASCII letter, then letters and digits, and none of the words that
announce a form. The name of the functions around bare expressions is no such word, which is what
keeps a source from calling them.
-/

namespace Reckon

/-- The name is a word that stands for itself. -/
def isIdentifier (name : String) : Bool :=
  match name.toList with
  | [] => false
  | first :: rest =>
    isAsciiLetter first && rest.all isAsciiAlphanumeric && name != "def" && name != "extern"

theorem isIdentifier_anonymousSymbol : isIdentifier anonymousSymbol = false := by decide

theorem ne_anonymousSymbol {name : String} (h : isIdentifier name = true) :
    name ≠ anonymousSymbol := by
  rintro rfl
  simp only [isIdentifier_anonymousSymbol, Bool.false_eq_true] at h

theorem ne_empty {name : String} (h : isIdentifier name = true) : name ≠ "" := by
  rintro rfl
  contradiction

theorem Prototype.symbol_of_anonymous {p : Prototype} (bare : p.isAnonymous = true) :
    p.symbol = anonymousSymbol := by
  rw [Prototype.symbol, if_pos bare]

theorem Prototype.symbol_of_named {p : Prototype} (h : p.name ≠ "") : p.symbol = p.name := by
  have named : ¬p.isAnonymous = true := by simpa [Prototype.isAnonymous] using h
  rw [Prototype.symbol, if_neg named]

theorem Prototype.symbol_of_identifier {p : Prototype} (h : isIdentifier p.name = true) :
    p.symbol = p.name := symbol_of_named (ne_empty h)

mutual

/-- The variables and the callees of an expression, in order. -/
def Expr.names : Expr → List String
  | .number _ => []
  | .var name => [name]
  | .binary _ left right => left.names ++ right.names
  | .call callee args => callee :: argNames args

def argNames : List Expr → List String
  | [] => []
  | arg :: args => arg.names ++ argNames args

end

def Prototype.names (p : Prototype) : List String := p.name :: p.params

/-- The names that a form takes from its source, so not the empty one of a bare expression. -/
def Form.words : Form → List String
  | .declaration p => p.names
  | .definition d =>
    (if d.prototype = .anonymous then [] else d.prototype.names) ++ d.body.names

def Expr.isSpelled (e : Expr) : Bool := e.names.all isIdentifier

def Prototype.isSpelled (p : Prototype) : Bool := isIdentifier p.name && p.params.all isIdentifier

/-- Every name in the form is an identifier, but that a bare expression has no name. Every form
    that is read from a source is such (`Parser.form_spells`). -/
def Form.isSpelled : Form → Bool
  | .declaration p => p.isSpelled
  | .definition d => (d.prototype = .anonymous || d.prototype.isSpelled) && d.body.isSpelled

theorem Form.isSpelled_of_words {f : Form}
    (spelled : ∀ name ∈ f.words, isIdentifier name = true) : f.isSpelled = true := by
  cases f with
  | declaration p =>
      simpa only [isSpelled, Prototype.isSpelled, words, Prototype.names, List.forall_mem_cons,
        Bool.and_eq_true, List.all_eq_true] using spelled
  | definition d =>
      obtain ⟨prototype, body⟩ := List.forall_mem_append.mp spelled
      have bodySpelled : d.body.isSpelled = true := List.all_eq_true.mpr body
      by_cases bare : d.prototype = .anonymous
      · simp only [isSpelled, bare, decide_true, Bool.true_or, bodySpelled, Bool.and_self]
      · rw [if_neg bare] at prototype
        have named : d.prototype.isSpelled = true := by
          simpa only [Prototype.isSpelled, Prototype.names, List.forall_mem_cons,
            Bool.and_eq_true, List.all_eq_true] using prototype
        simp only [isSpelled, named, Bool.or_true, bodySpelled, Bool.and_self]

theorem Form.prototype_eq_anonymous {d : Definition}
    (spelled : (Form.definition d).isSpelled = true) (bare : d.prototype.isAnonymous = true) :
    d.prototype = .anonymous := by
  simp only [Form.isSpelled, Prototype.isSpelled, Bool.and_eq_true, Bool.or_eq_true,
    decide_eq_true_eq] at spelled
  refine spelled.1.resolve_right fun named => ne_empty named.1 ?_
  simpa [Prototype.isAnonymous] using bare

end Reckon
