import Reckon.Proofs.Compile.Legibility
import Reckon.Proofs.Sessions.History

/-! # The module that a session prints

Wherever a round of a session starts, the module is one that forms were compiled into, so that it
can be told from its text. Two sessions that print the same have compiled the same functions, and
only what came and went between them shows in their ids.
-/

namespace Reckon

open Ir

namespace Session

theorem compiled_spelled_of_mem_starts {s t : Session} (compiled : s.backend.Compiled)
    {table : Operators} {source : Source} (mem : t ∈ (s.reading table source.feed).starts) :
    t.backend.Compiled ∧ t.parser.Spelled := by
  refine forall_mem_starts (P := fun u => u.backend.Compiled ∧ u.parser.Spelled) ?_ ?_ t mem
  · intro u begun
    obtain ⟨read, follows⟩ := follows_of_begin begun
    have same : u.backend = s.backend := follows.backend
    have ahead : (s.reading table source.feed).parser.Spelled := Parser.ofFeed_spelled source
    exact ⟨same ▸ compiled, (Parser.Moves.of_advance read).spelled ahead⟩
  · intro u v run h
    obtain ⟨turned, follows⟩ := follows_of_round run
    have taken : v.backend = u.backend.takeAll u.parser.form?.toList := follows.backend
    refine ⟨?_, (Parser.turn_takes turned).1.spelled h.2⟩
    rw [taken]
    cases found : u.parser.form? with
    | none => exact h.1
    | some form => exact h.1.take (h.2.form? found)

theorem compiled_of_mem_starts {s t : Session} (compiled : s.backend.Compiled) {table : Operators}
    {source : Source} (mem : t ∈ (s.reading table source.feed).starts) : t.backend.Compiled :=
  (compiled_spelled_of_mem_starts compiled mem).1

/-- The printed module loses nothing. Between two forms of any sessions, modules of the same name
    print as the same text just if they hold the same functions in the same order, under ids that
    tell them apart and that their bodies call them by. -/
theorem printed_modules_lose_nothing {s s' t t' : Session} (compiled : s.backend.Compiled)
    (compiled' : s'.backend.Compiled) {table table' : Operators} {source source' : Source}
    (between : t ∈ (s.reading table source.feed).starts)
    (between' : t' ∈ (s'.reading table' source'.feed).starts)
    (sameName : t'.backend.target.name = t.backend.target.name) :
    t'.backend.target.text = t.backend.target.text ↔
      ∃ ρ, t.backend.target.Copies ρ t'.backend.target ∧
        ∀ f ∈ t.backend.target.functions, ∀ g ∈ t.backend.target.functions,
          ρ f.id = ρ g.id → f = g := by
  have legible := (compiled_of_mem_starts compiled between).legible
  have legible' := (compiled_of_mem_starts compiled' between').legible
  constructor
  · intro sameText
    have copies := legible.copies_of_text_eq legible' sameName sameText
    exact ⟨_, copies, fun f hf g hg => copies.id_inj legible.toIntegral legible'.toOrderly hf hg⟩
  · rintro ⟨ρ, copies, -⟩
    exact copies.text_eq legible.toIntegral legible'.toOrderly

/-- A bare expression came and went before one of the two definitions, which calls itself with a
    parameter whose name was given twice. -/
theorem printed_modules_lose_nothing_renumbered :
    ∃ (s t t' : Session) (source source' : Source),
      source = .ofString "def f(x x) f(x, 2)\n" ∧ source' = .ofString "1\ndef f(x x) f(x, 2)\n" ∧
      t ∈ (s.reading .standard source.feed).starts ∧
      t' ∈ (s.reading .standard source'.feed).starts ∧
      t.backend.target.functions.map (·.id) = [⟨0⟩] ∧
      t'.backend.target.functions.map (·.id) = [⟨1⟩] ∧
      t'.backend.target.text = t.backend.target.text ∧
      ∃ ρ, t.backend.target.Copies ρ t'.backend.target := by
  let s : Session := ⟨.ofFeed (.ofTokens []), .empty "m", {}, {}⟩
  let two : Double := ⟨0x4000000000000000⟩
  let definition : List Token :=
    [.define, .ident "f", .char '(', .ident "x", .ident "x", .char ')', .ident "f", .char '(',
      .ident "x", .char ',', .number two, .char ')']
  let source : Source := .ofString "def f(x x) f(x, 2)\n"
  let source' : Source := .ofString "1\ndef f(x x) f(x, 2)\n"
  have feed : source.feed = .ofTokens definition := by decide +kernel
  have feed' : source'.feed = .ofTokens (.number .one :: definition) := by decide +kernel
  let made (id : FunctionId) : Function :=
    ⟨id, "f", ["x", "x"], some [.call id [.param 1, .const two] 0, .ret (.temp 0)], 1⟩
  have targets : (s.reading .standard source.feed).starts.map (·.backend.target) =
      [.empty "m", ⟨"m", [made ⟨0⟩], 1, some ⟨0⟩⟩] := by
    rw [feed]
    decide +kernel
  have targets' : (s.reading .standard source'.feed).starts.map (·.backend.target) =
      [.empty "m", ⟨"m", [], 1, none⟩, ⟨"m", [made ⟨1⟩], 2, some ⟨1⟩⟩] := by
    rw [feed']
    decide +kernel
  obtain ⟨t, between, target⟩ : ∃ t ∈ (s.reading .standard source.feed).starts,
      t.backend.target = ⟨"m", [made ⟨0⟩], 1, some ⟨0⟩⟩ :=
    List.mem_map.mp (targets ▸ by simp)
  obtain ⟨t', between', target'⟩ : ∃ t ∈ (s.reading .standard source'.feed).starts,
      t.backend.target = ⟨"m", [made ⟨1⟩], 2, some ⟨1⟩⟩ :=
    List.mem_map.mp (targets' ▸ by simp)
  have compiled : s.backend.Compiled := .empty "m" true
  have sameText : t'.backend.target.text = t.backend.target.text := by
    rw [target, target']
    decide +kernel
  have read := printed_modules_lose_nothing compiled compiled between between'
    (by rw [target, target'])
  obtain ⟨ρ, copies, -⟩ := read.mp sameText
  exact ⟨s, t, t', source, source', rfl, rfl, between, between', by rw [target]; rfl,
    by rw [target']; rfl, sameText, ρ, copies⟩

end Session

end Reckon
