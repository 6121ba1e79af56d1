import Ember.Proofs.Eval.Tokens
import Ember.Proofs.Layout.Lexing
import Ember.Proofs.Layout.Parser

/-!
# Layout has no meaning

Layout between tokens only moves them. The lexer finds the same tokens at other places, the parser
does not look at places, and neither does evaluation. So whoever runs a program cannot tell how it
is laid out (`Program.layout_irrelevant`).
-/

namespace Ember

instance (t : Token) : Decidable t.IsUnclosed := inferInstanceAs (Decidable (_ ∧ _))

namespace Program

variable {p q : Program}

theorem map_bare_of_unplaced_eq (h : p.unplaced = q.unplaced) :
    p.statements.map Stmt.bare = q.statements.map Stmt.bare :=
  map_bare_of_unplaced (congrArg statements h)

/-- With any budget, programs that differ in places only come to the same, but for tokens. -/
theorem evalWith_of_unplaced (h : p.unplaced = q.unplaced) (m : Machine) (budget : Nat)
    (env : ScopeId) :
    (m.evalWith budget env (.program p)).1.bare = (m.evalWith budget env (.program q)).1.bare ∧
      (m.evalWith budget env (.program p)).2.printer =
        (m.evalWith budget env (.program q)).2.printer := by
  obtain ⟨houtcome, hmachine⟩ := m.bare_evalWith_congr (map_bare_of_unplaced_eq h) budget env
  have hprinter := congrArg Machine.printer hmachine
  exact ⟨houtcome, hprinter⟩

/--
The tokens of a text whose strings all have an end may be written down with any layout between them,
in front of the first and behind the last: these tokens, at other places, are read again. The parser
makes the same statements and reports the same diagnostics, but for the places. With every limit on
nested calls, both programs come on a fresh machine to values of the same type and text, to the same
error message or to the same fault, and print the same.
-/
theorem layout_irrelevant {source text : String}
    (hclosed : ∀ t ∈ (TokenList.ofSource source).tokens, ¬t.IsUnclosed)
    (h : Spaced ((TokenList.ofSource source).tokens.dropLast.map Token.spelling) text.toList) :
    (TokenList.ofSource source).tokens.map Token.piece =
        (TokenList.ofSource text).tokens.map Token.piece ∧
      (ofSource source).unplaced = (ofSource text).unplaced ∧
      ∀ limit : Nat,
        let (env, m) := Machine.fresh (some limit)
        (m.eval env (.program (ofSource source))).1.Alike
            (m.eval env (.program (ofSource text))).1 ∧
          (m.eval env (.program (ofSource source))).2.printer.text =
            (m.eval env (.program (ofSource text))).2.printer.text := by
  have htokens := (map_piece_of_spaced hclosed h).symm
  have hprogram := unplaced_ofTokens_congr htokens
  refine ⟨htokens, hprogram, fun limit => ?_⟩
  obtain ⟨houtcome, hprinter⟩ := evalWith_of_unplaced hprogram (Machine.fresh (some limit)).2
    (Machine.fresh (some limit)).2.callBudget (Machine.fresh (some limit)).1
  have hends := Machine.eval_ne_exhausted (m := (Machine.fresh (some limit)).2) rfl
    (Machine.fresh (some limit)).1 (.program (ofSource source))
  exact ⟨Outcome.alike_of_bare houtcome hends, congrArg Printer.text hprinter⟩

/-- A call with a string that has layout inside of it. -/
theorem layout_irrelevant_puts :
    let source := "puts(\"a b\")+1"
    let text := "\n puts\t( \"a b\" )\r\n+ 1 "
    (∀ t ∈ (TokenList.ofSource source).tokens, ¬t.IsUnclosed) ∧
      Spaced ((TokenList.ofSource source).tokens.dropLast.map Token.spelling) text.toList ∧
      (TokenList.ofSource source).tokens.map Token.piece =
        (TokenList.ofSource text).tokens.map Token.piece ∧
      (ofSource source).unplaced = (ofSource text).unplaced := by
  intro source text
  have hclosed : ∀ t ∈ (TokenList.ofSource source).tokens, ¬t.IsUnclosed := by decide +kernel
  have htexts : (TokenList.ofSource source).tokens.dropLast.map Token.spelling =
      ["puts", "(", "\"a b\"", ")", "+", "1"] := by decide +kernel
  have htext : text.toList = '\n' :: ' ' :: ("puts".toList ++ '\t' :: ("(".toList ++ ' ' ::
      ("\"a b\"".toList ++ ' ' :: (")".toList ++ '\r' :: '\n' :: ("+".toList ++ ' ' ::
        ("1".toList ++ [' '])))))) := by decide
  have hspaced :
      Spaced ((TokenList.ofSource source).tokens.dropLast.map Token.spelling) text.toList := by
    rw [htexts, htext]
    exact .layout (by decide) <| .layout (by decide) <| .text _ (by decide) <|
      .text _ (by decide) <| .text _ (by decide) <| .text _ (by decide) <|
      .layout (by decide) <| .text _ (by decide) <| .text _ (by decide) .nil
  obtain ⟨htokens, hprogram, -⟩ := layout_irrelevant hclosed hspaced
  exact ⟨hclosed, hspaced, htokens, hprogram⟩

end Program

end Ember
