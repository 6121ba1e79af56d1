import Ember.Proofs.Canonical.Lexing
import Ember.Proofs.Canonical.Phrases
import Ember.Proofs.Grammar.Program

/-!
# The canonical text of a program is read back

A program without placeholders is written, lexed and parsed to the same statements again, but for
the tokens in them, unless its text opens more levels of nesting than may be open at once. In that
case the parser reports so (`Program.ofSource_render`).

The way leads through the pieces: the text is scanned to the pieces of the program
(`scan_renderProgram`), tokens with these pieces are a program of the grammar
(`statements_of_pieces`), and the parser reads what the grammar accepts.
-/

namespace Ember

open Phrase

/-- The text of statements, one a line. -/
def statementText : List Stmt → List Char
  | [] => []
  | [s] => s.render.toList
  | s :: ss => s.render.toList ++ '\n' :: statementText ss

theorem toList_renderProgram (p : Program) : p.render.toList = statementText p.statements := by
  obtain ⟨ss, ds⟩ := p
  show ("\n".intercalate (ss.map Stmt.render)).toList = statementText ss
  induction ss with
  | nil => rfl
  | cons s ss ih =>
    cases ss with
    | nil => simp [statementText]
    | cons t ss =>
      rw [List.map_cons, List.map_cons, String.intercalate_cons_cons, String.toList_append,
        String.toList_append, ← List.map_cons, ih, List.append_assoc]
      rfl

/-- The text of a program is scanned to its pieces. -/
theorem scan_renderProgram : ∀ (ss : List Stmt), (∀ s ∈ ss, s.Writable) →
    scan (statementText ss) = bodyPieces ss
  | [], _ => scan_nil
  | [s], h => by
    have hs := scan_renderStmt s (h s List.mem_cons_self) []
    rwa [List.append_nil, scan_nil] at hs
  | s :: t :: ss, h => by
    have hrest := scan_renderProgram (t :: ss) fun u hu => h u (List.mem_cons_of_mem s hu)
    rw [statementText, scan_renderStmt s (h s List.mem_cons_self), scan_newline, hrest]
    · rfl
    · exact nofun

/-- Tokens that spell the statements of a program are that program. -/
theorem statements_of_pieces : ∀ (ss : List Stmt), (∀ s ∈ ss, s.Writable) → ∀ ts : List Token,
    Spells ts (bodyPieces ss) [] →
      ∃ ss', ss'.map Stmt.bare = ss.map Stmt.bare ∧ Statements ts ss' (bodyDepth ss)
  | [], _, ts, h => by
    rw [h.of_nil]
    exact ⟨[], rfl, .nil⟩
  | s :: ss, hw, ts, h => by
    obtain ⟨vs, hs, hss⟩ := Spells.of_append h
    obtain ⟨s', hbare, hs'⟩ := statement_of_pieces s (hw s List.mem_cons_self) ts vs hs
    obtain ⟨ss', hbares, hss'⟩ :=
      statements_of_pieces ss (fun t ht => hw t (List.mem_cons_of_mem s ht)) vs hss
    refine ⟨s' :: ss', ?_, .cons hs' hss'⟩
    rw [List.map_cons, hbare, hbares, List.map_cons]

/--
The text of a program without placeholders is lexed to tokens that the grammar gives the statements
of the program, and the levels they open are those of the program. Within the limit on nesting the
text is parsed to these statements without a diagnostic; if a statement opens more levels, there is
a diagnostic that says so.
-/
theorem Program.ofSource_render {p : Program} (hp : ∀ s ∈ p.statements, s.Writable) :
    ∃ body ending ss, TokenList.ofSource p.render = ⟨body ++ [ending]⟩ ∧
      ss.map Stmt.bare = p.statements.map Stmt.bare ∧
      Statements body ss (bodyDepth p.statements) ∧
      ((∀ s ∈ p.statements, s.levels ≤ maxNesting) → ofSource p.render = ⟨ss, []⟩) ∧
      ((∃ s ∈ p.statements, maxNesting < s.levels) →
        ∃ d ∈ (ofSource p.render).diagnostics, d.reason = .nestedTooDeeply maxNesting) := by
  -- From the text to tokens, from tokens to a program of the grammar, from there to the parser.
  obtain ⟨body, ending, htokens, hpieces, hending, hbody⟩ :=
    tokens_eq_scan (Lexer.ofString p.render)
  have hscan : body.map Token.piece = bodyPieces p.statements := by
    rw [hpieces]
    show scan p.render.toList = _
    rw [toList_renderProgram, scan_renderProgram p.statements hp]
  have hspells : Spells body (bodyPieces p.statements) [] := by
    rw [← hscan]
    exact .of_map body
  obtain ⟨ss, hbare, hss⟩ := statements_of_pieces p.statements hp body hspells
  have hsource : TokenList.ofSource p.render = ⟨body ++ [ending]⟩ :=
    congrArg TokenList.mk htokens
  have hparse : ofSource p.render = ⟨(readStatements body.length ⟨body, ending⟩).1,
      (readStatements body.length ⟨body, ending⟩).2⟩ := by
    unfold ofSource ofTokens
    rw [hsource, Input.ofList_concat hbody hending]
  obtain ⟨hwithin, hbeyond⟩ :=
    readStatements_of_statements hending hss body.length (Nat.le_refl _)
  refine ⟨body, ending, ss, hsource, hbare, hss, ?_, ?_⟩
  · intro hlevels
    rw [hparse, hwithin (bodyDepth_le_iff.mpr hlevels)]
  · rintro ⟨s, hs, hlevels⟩
    have hlt : maxNesting < bodyDepth p.statements := by
      refine Nat.lt_of_not_le ?_
      intro hle
      exact Nat.not_le_of_lt hlevels (bodyDepth_le_iff.mp hle s hs)
    rw [hparse]
    exact hbeyond hlt

/-- A function literal that is called where it is written needs no parentheses around it. -/
theorem Program.ofSource_called_literal :
    let t := Token.endOfInput
    let x : Identifier := ⟨t, "x"⟩
    let sum := Expr.binary t (.identifier x) .add (.integer t 1)
    let callee := Expr.function ⟨t, [x], ⟨t, [.expression t sum]⟩⟩
    let p : Program := ⟨[.expression t (.call t callee [.integer t 2])], []⟩
    (∀ s ∈ p.statements, s.Writable) ∧ p.render = "fn(x) \x7b (x + 1); \x7d(2);" ∧
      ∃ ss, ofSource p.render = ⟨ss, []⟩ ∧ ss.map Stmt.bare = p.statements.map Stmt.bare := by
  intro t x sum callee p
  have hword : IsWord "x" := isWord_cons rfl rfl
  have hx : x.Writable := ⟨hword, rfl⟩
  have hone : (0 : Int) ≤ (1 : Int64).toInt := by decide
  have htwo : (0 : Int) ≤ (2 : Int64).toInt := by decide
  have hsum : sum.Writable := ⟨hx, hone⟩
  have hcallee : callee.Writable := ⟨List.forall_mem_singleton.mpr hx, hsum, trivial⟩
  have hp : ∀ s ∈ p.statements, s.Writable :=
    List.forall_mem_singleton.mpr ⟨hcallee, htwo, trivial⟩
  obtain ⟨_, _, ss, -, hbare, -, hwithin, -⟩ := ofSource_render hp
  exact ⟨hp, by decide, ss, hwithin (by decide), hbare⟩

end Ember
