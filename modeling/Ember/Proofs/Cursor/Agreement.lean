import Ember.Proofs.Cursor.Standing
import Ember.Proofs.Recovery.Statement

/-!
# The same grammar by position

A cursor on an input reads what the rules of the grammar read from it, and stops before what they
leave. Where a rule fails the cursor is on the token in front of it. So no walk runs forever, none
leaves the list in front of its first end of input, and what lies behind that end makes no
difference.

The rules are followed one by one, for any rule for expressions that agrees with the walk for
expressions (`AgreesExpr`). Loops go by induction on the pending tokens, and `agreesExpr` closes the
circle by induction on the levels that are left.
-/

namespace Ember.Grammar

open Rule Cursor

variable {o c : Cursor} {i : Input} {expr : Precedence → Rule Expr}

/-- From cursors that follow `o`, expressions are read as the rule reads them. -/
def AgreesExpr (o : Cursor) (expr : Precedence → Rule Expr) : Prop :=
  ∀ above c i, On o c i →
    Matches (Before o) (On o) (fun n => Walk.expression n above c) (expr above i)

/-! ## Statements -/

/-- What ends a statement is looked for behind the cursor, not under it. -/
theorem matches_terminator (h : Before o c i) :
    Matches (Before o) (On o) (fun _ => Walk.terminator c) (terminator i) := by
  unfold Walk.terminator terminator
  rw [Walk.peek_bind, peekKind_bind, h.kind_peek]
  cases i.head.kind
  case rBrace | eof => exact .pure () h
  all_goals exact (Matches.expectPeek (by decide) h).discard

theorem matches_optionalSemicolon (h : Before o c i) :
    Matches (Before o) (On o) (fun _ => Walk.optionalSemicolon c) (optionalSemicolon i) := by
  unfold Walk.optionalSemicolon optionalSemicolon
  rw [Walk.peek_bind, peekKind_bind, h.kind_peek]
  split
  · next hk => exact .ok () (.const _) (h.advance.before (by rw [hk]; decide))
  · exact .pure () h

/-- A statement begins under the cursor and ends with the cursor on its last token. -/
theorem matches_statement (he : AgreesExpr o expr) (h : On o c i) :
    Matches (Before o) (On o) (fun n => Walk.statement n c) (statement expr i) := by
  refine .call (fun n => congrFun (Walk.statement.eq_2 n) c) (.current ?_)
  unfold statement
  rw [peekKind_bind, h.kind_current]
  cases hk : i.head.kind
  case kwLet =>
    have hne : i.head.kind ≠ .eof := by rw [hk]; decide
    rw [h.current_eq hne]
    refine (Matches.expectPeek (by decide) (h.before hne)).bind fun name c₁ i₁ _ h₁ => ?_
    refine (Matches.expectPeek (by decide) h₁).bind fun _ c₂ i₂ _ h₂ => .advance ?_
    refine (he .lowest _ _ h₂.advance).bind fun value c₃ i₃ _ h₃ => ?_
    exact (matches_terminator h₃).bind fun _ c₄ i₄ _ h₄ => .pure _ h₄
  case kwReturn =>
    have hne : i.head.kind ≠ .eof := by rw [hk]; decide
    rw [h.current_eq hne]
    refine .advance ((he .lowest _ _ h.tail).bind fun value c₁ i₁ _ h₁ => ?_)
    exact (matches_terminator h₁).bind fun _ c₂ i₂ _ h₂ => .pure _ h₂
  all_goals
    refine (he .lowest _ _ h).bind fun value c₁ i₁ _ h₁ => ?_
    exact (matches_optionalSemicolon h₁).bind fun _ c₂ i₂ _ h₂ => .pure _ h₂

/-! ## Loops -/

/--
A loop with something behind it. Both sides stop at the same tokens, and as long as they do not stop
both run their rule once and go on; that this ends is because the rule takes a token.
-/
theorem matches_whileNext {α β : Type} {accepts : Kind → Bool} {P S F : Cursor → Input → Prop}
    {loop : Nat → Walk (List α)} (item : Nat → Walk α) {r : Rule α} {after : Rule β}
    (ht : Takes r) (ended : ∀ c i, P c i → i.Ended)
    (stop : ∀ c i, P c i → accepts i.head.kind = false →
      Matches S F (fun n => loop (n + 1) c) ((after >>= fun _ => pure []) i))
    (go : ∀ c i, P c i → accepts i.head.kind = true →
      (∀ n, loop (n + 1) c = (item n >>= fun a => loop n >>= fun as => pure (a :: as)) c) ∧
        Matches P F (fun n => item n c) (r i))
    (h : P c i) :
    Matches S F (fun n => loop n c)
      ((whileNext accepts r >>= fun as => after >>= fun _ => pure as) i) := by
  induction hn : i.pending.length using Nat.strongRecOn generalizing c i with
  | ind k ih =>
    refine .call (fun _ => rfl) ?_
    cases ha : accepts i.head.kind with
    | false =>
      rw [bind_of_ok (whileNext_of_neg ha)]
      exact stop c i h ha
    | true =>
      obtain ⟨hloop, hitem⟩ := go c i h ha
      have hwhile : (whileNext accepts r >>= fun as => after >>= fun _ => pure as) i
          = (r >>= fun a => (whileNext accepts r >>= fun as => after >>= fun _ => pure as)
              >>= fun as => pure (a :: as)) i := by
        rw [bind_congr_left (whileNext_of_pos ht (ended c i h) ha)]
        simp only [bind_assoc, pure_bind]
      simp only [hloop]
      rw [hwhile]
      refine hitem.bind fun a c₁ i₁ hr h₁ => ?_
      have hlt := (ht (ended c i h) a i₁ hr).2
      exact (ih _ (hn ▸ hlt) h₁ rfl).bind fun as c₂ i₂ _ h₂ => .pure _ h₂

/-- A loop that looks at the next token before each run and has nothing behind it. -/
theorem matches_loop {α : Type} {accepts : Kind → Bool} {loop : Nat → Walk (List α)}
    (item : Nat → Walk α) {r : Rule α} (ht : Takes r)
    (hloop : ∀ (n : Nat) (c : Cursor), loop (n + 1) c =
      (if accepts c.peek.kind = true then item n >>= fun a => loop n >>= fun as => pure (a :: as)
        else pure [] : Walk (List α)) c)
    (hitem : ∀ c i, Before o c i → accepts i.head.kind = true →
      Matches (Before o) (On o) (fun n => item n c) (r i))
    (h : Before o c i) :
    Matches (Before o) (On o) (fun n => loop n c) (whileNext accepts r i) := by
  have hafter : Matches (Before o) (On o) (fun n => loop n c)
      ((whileNext accepts r >>= fun as => (pure () : Rule Unit) >>= fun _ => pure as) i) := by
    refine matches_whileNext item (P := Before o) ht (fun _ _ h => h.advance.ended)
      ?stop ?go h
    case stop =>
      intro c i h ha
      simp only [hloop, h.kind_peek, ha, pure_bind]
      exact .pure [] h
    case go =>
      intro c i h ha
      refine ⟨fun n => ?_, hitem c i h ha⟩
      rw [hloop, h.kind_peek, if_pos ha]
  simpa only [pure_bind, bind_pure] using hafter

/-! ## Blocks -/

/-- Inside a block the cursor moves on behind each statement. -/
theorem matches_blockStatement (he : AgreesExpr o expr) (h : On o c i) :
    Matches (On o) (On o) (fun n => Walk.blockStatement n c) (statement expr i) := by
  refine .call (fun n => congrFun (Walk.blockStatement.eq_2 n) c) ?_
  rw [← bind_pure (statement expr)]
  exact (matches_statement he h).bind fun s c₁ i₁ _ h₁ => .advance (.pure s h₁.advance)

/-- The procedure stops on the closing brace, which the rule takes. -/
theorem matches_blockStatements (he : AgreesExpr o expr) (ht : Takes (statement expr))
    (h : On o c i) :
    Matches (Before o) (On o) (fun n => Walk.blockStatements n c)
      ((whileNext (fun kind => kind ≠ .rBrace ∧ kind ≠ .eof) (statement expr) >>= fun ss =>
        expect .rBrace >>= fun _ => pure ss) i) := by
  refine matches_whileNext Walk.blockStatement (P := On o) ht
    (fun _ _ h => h.ended) ?stop ?go h
  case stop =>
    intro c i h ha
    have hrun : ∀ n, Walk.blockStatements (n + 1) c = _ := fun n =>
      congrFun (Walk.blockStatements.eq_2 n) c
    simp only [hrun, Walk.current_bind, h.kind_current]
    by_cases hbrace : i.head.kind = .rBrace
    · rw [bind_of_ok (expect_of_eq hbrace)]
      simp only [if_pos hbrace]
      exact .pure [] (h.before (by rw [hbrace]; decide))
    · have heof : i.head.kind = .eof := by simpa [hbrace] using ha
      rw [bind_of_error (expect_of_ne hbrace)]
      simp only [if_neg hbrace, if_pos heof]
      exact .error _ (.const _) h
  case go =>
    intro c i h ha
    obtain ⟨hbrace, heof⟩ : i.head.kind ≠ .rBrace ∧ i.head.kind ≠ .eof := by simpa using ha
    refine ⟨fun n => ?_, matches_blockStatement he h⟩
    rw [Walk.blockStatements, Walk.current_bind, h.kind_current, if_neg hbrace, if_neg heof]

theorem matches_block (he : AgreesExpr o expr) (ht : Takes (statement expr)) (h : On o c i)
    (hk : i.head.kind = .lBrace) :
    Matches (Before o) (On o) (fun n => Walk.block n c) (block expr i) := by
  have hne : i.head.kind ≠ .eof := by rw [hk]; decide
  have hbody : (whileNext (fun kind => kind ≠ .rBrace ∧ kind ≠ .eof) (statement expr) >>= fun ss =>
      expect .rBrace >>= fun _ => pure ⟨i.head, ss⟩ : Rule Block)
      = (whileNext (fun kind => kind ≠ .rBrace ∧ kind ≠ .eof) (statement expr) >>= fun ss =>
        expect .rBrace >>= fun _ => pure ss) >>= fun ss => pure ⟨i.head, ss⟩ := by
    simp only [bind_assoc, pure_bind]
  refine .call (fun n => congrFun (Walk.block.eq_2 n) c) (.current (.advance ?_))
  rw [h.current_eq hne]
  unfold block
  rw [bind_of_ok (expect_of_eq hk), hbody]
  exact (matches_blockStatements he ht h.tail).bind fun ss c₁ i₁ _ h₁ => .pure _ h₁

/-- A block whose opening brace is still to be asked for. -/
theorem matches_expectPeek_block {α : Type} {f : Nat → Block → Walk α} {g : Block → Rule α}
    {S : Cursor → Input → Prop} (he : AgreesExpr o expr) (ht : Takes (statement expr))
    (h : Before o c i)
    (hf : ∀ b c' i', Before o c' i' → Matches S (On o) (fun n => f n b c') (g b i')) :
    Matches S (On o)
      (fun n => (Walk.expectPeek .lBrace >>= fun _ => Walk.block n >>= f n) c)
      ((block expr >>= g) i) := by
  refine Matches.expectPeek_bind h (fun hk => ?_) fun hk => ?_
  · exact (matches_block he ht h.advance hk).bind fun b c₁ i₁ _ h₁ => hf b c₁ i₁ h₁
  · exact bind_of_error (bind_of_error (expect_of_ne hk))

/-! ## Lists -/

/-- Two steps, onto the comma and onto the name. -/
theorem matches_nextParameter (h : Before o c i) (hk : i.head.kind = .comma) :
    Matches (Before o) (On o) (fun _ => Walk.nextParameter c)
      (afterComma (do return .ofToken (← expect .ident)) i) := by
  unfold Walk.nextParameter afterComma
  rw [bind_of_ok (expect_of_eq hk)]
  refine .advance (.advance ?_)
  exact (Matches.expectCurrent (by decide) h.advance.tail).bind fun _ _ _ _ h₁ => .pure _ h₁

/-- On both sides each round takes a comma and a name. -/
theorem matches_moreParameters (h : Before o c i) :
    Matches (Before o) (On o) (fun n => Walk.moreParameters n c)
      (whileNext (· = .comma) (afterComma (do return .ofToken (← expect .ident))) i) := by
  refine matches_loop (fun _ => Walk.nextParameter) (takes_afterComma takes_parameter)
    (fun n c => ?_) (fun c i h ha => ?_) h
  · rw [Walk.moreParameters, Walk.peek_bind]
    simp
  · exact matches_nextParameter h (by simpa using ha)

theorem matches_parameters (h : Before o c i) :
    Matches (Before o) (On o) (fun n => Walk.parameters n c)
      (separated (do return .ofToken (← expect .ident)) .rParen i) := by
  unfold Walk.parameters separated
  refine .peek ?_
  rw [peekKind_bind, h.kind_peek]
  by_cases hk : i.head.kind = .rParen
  · simp only [if_pos hk]
    exact .advance (.pure [] (h.advance.before (by rw [hk]; decide)))
  · simp only [if_neg hk, bind_assoc]
    refine .advance ((Matches.expectCurrent (by decide) h.advance).bind fun name c₁ i₁ _ h₁ => ?_)
    refine (matches_moreParameters h₁).bind fun names c₂ i₂ _ h₂ => ?_
    exact (Matches.expectPeek (by decide) h₂).bind fun _ c₃ i₃ _ h₃ => .pure _ h₃

theorem matches_nextExpression (he : AgreesExpr o expr) (h : Before o c i)
    (hk : i.head.kind = .comma) :
    Matches (Before o) (On o) (fun n => Walk.nextExpression n c)
      (afterComma (expr .lowest) i) := by
  refine .call (fun n => congrFun (Walk.nextExpression.eq_2 n) c) (.advance (.advance ?_))
  unfold afterComma
  rw [bind_of_ok (expect_of_eq hk)]
  exact he .lowest _ _ h.advance.tail

theorem matches_moreExpressions (he : AgreesExpr o expr) (ht : Takes (expr .lowest))
    (h : Before o c i) :
    Matches (Before o) (On o) (fun n => Walk.moreExpressions n c)
      (whileNext (· = .comma) (afterComma (expr .lowest)) i) := by
  refine matches_loop Walk.nextExpression (takes_afterComma ht) (fun n c => ?_)
    (fun c i h ha => ?_) h
  · rw [Walk.moreExpressions, Walk.peek_bind]
    simp
  · exact matches_nextExpression he h (by simpa using ha)

/-- The list is entered from the opening token and left on the closing one. -/
theorem matches_expressions {closing : Kind} (hc : closing ≠ .eof) (he : AgreesExpr o expr)
    (ht : Takes (expr .lowest)) (h : Before o c i) :
    Matches (Before o) (On o) (fun n => Walk.expressions n closing c)
      (expressions expr closing i) := by
  refine .call (fun n => congrFun (Walk.expressions.eq_2 closing n) c) (.peek ?_)
  unfold expressions separated
  rw [peekKind_bind, h.kind_peek]
  by_cases hk : i.head.kind = closing
  · simp only [if_pos hk]
    exact .advance (.pure [] (h.advance.before (by rw [hk]; exact hc)))
  · simp only [if_neg hk]
    refine .advance ((he .lowest _ _ h.advance).bind fun first c₁ i₁ _ h₁ => ?_)
    refine (matches_moreExpressions he ht h₁).bind fun others c₂ i₂ _ h₂ => ?_
    exact (Matches.expectPeek hc h₂).bind fun _ c₃ i₃ _ h₃ => .pure _ h₃

theorem matches_nextPair (he : AgreesExpr o expr) (h : On o c.advance i) :
    Matches (Before o) (On o) (fun n => Walk.nextPair n c) (pair expr i) := by
  refine .call (fun n => congrFun (Walk.nextPair.eq_2 n) c) (.advance ?_)
  unfold pair
  refine (he .lowest _ _ h).bind fun key c₁ i₁ _ h₁ => ?_
  refine (Matches.expectPeek (by decide) h₁).bind fun _ c₂ i₂ _ h₂ => .advance ?_
  refine (he .lowest _ _ h₂.advance).bind fun value c₃ i₃ _ h₃ => ?_
  rw [Walk.peek_bind, peekKind_bind, h₃.kind_peek]
  split
  · exact (Matches.expectPeek (by decide) h₃).discard.bind fun _ c₄ i₄ _ h₄ => .pure _ h₄
  · exact .pure _ h₃

/-- A pair begins behind the cursor, so a round steps onto it first. -/
theorem matches_pairs (he : AgreesExpr o expr) (ht : Takes (pair expr)) (h : Before o c i) :
    Matches (Before o) (On o) (fun n => Walk.pairs n c)
      (whileNext (· ≠ .rBrace) (pair expr) i) := by
  refine matches_loop Walk.nextPair ht (fun n c => ?_) (fun c i h ha => ?_) h
  · rw [Walk.pairs, Walk.peek_bind]
    simp
  · exact matches_nextPair he h.advance

/-! ## Operands -/

/-- Where there is no alternative the cursor stays on the brace of the first block. -/
theorem matches_conditional (he : AgreesExpr o expr) (ht : Takes (statement expr)) (h : On o c i)
    (hk : i.head.kind = .kwIf) :
    Matches (Before o) (On o) (fun n => Walk.conditional n c) (conditional expr i) := by
  have hne : i.head.kind ≠ .eof := by rw [hk]; decide
  refine .call (fun n => congrFun (Walk.conditional.eq_2 n) c) (.current ?_)
  unfold conditional grouped
  rw [h.current_eq hne, bind_of_ok (expect_of_eq hk), bind_assoc]
  refine (Matches.expectPeek (by decide) (h.before hne)).bind fun _ c₁ i₁ _ h₁ => .advance ?_
  rw [bind_assoc]
  refine (he .lowest _ _ h₁.advance).bind fun condition c₂ i₂ _ h₂ => ?_
  rw [bind_assoc]
  refine (Matches.expectPeek (by decide) h₂).bind fun _ c₃ i₃ _ h₃ => ?_
  rw [pure_bind]
  refine matches_expectPeek_block he ht h₃ fun consequence c₄ i₄ h₄ => ?_
  refine .peek ?_
  rw [peekKind_bind, h₄.kind_peek]
  by_cases helse : i₄.head.kind = .kwElse
  · simp only [if_pos helse]
    refine .advance ?_
    refine matches_expectPeek_block he ht (h₄.advance.before (by rw [helse]; decide)) ?_
    exact fun alternative c₅ i₅ h₅ => .pure _ h₅
  · simp only [if_neg helse]
    exact .pure _ h₄

theorem matches_functionLiteral (he : AgreesExpr o expr) (ht : Takes (statement expr))
    (h : Before o c i.tail) (hk : i.head.kind = .kwFn) :
    Matches (Before o) (On o)
      (fun n => (Walk.expectPeek .lParen >>= fun _ => Walk.parameters n >>= fun names =>
        Walk.expectPeek .lBrace >>= fun _ => Walk.block n >>= fun body =>
          pure (.function ⟨i.head, names, body⟩)) c)
      (functionLiteral expr i) := by
  unfold functionLiteral parameters
  rw [bind_of_ok (expect_of_eq hk), bind_assoc]
  refine (Matches.expectPeek (by decide) h).bind fun _ c₁ i₁ _ h₁ => ?_
  refine (matches_parameters h₁).bind fun names c₂ i₂ _ h₂ => ?_
  exact matches_expectPeek_block he ht h₂ fun body c₃ i₃ h₃ => .pure _ h₃

theorem matches_unary (he : AgreesExpr o expr) (h : On o c i) :
    Matches (Before o) (On o) (fun n => Walk.unary n c) (unary expr i) := by
  refine .call (fun n => congrFun (Walk.unary.eq_2 n) c) (.current ?_)
  unfold unary
  rw [peek_bind, h.kind_current]
  cases hop : UnaryOp.ofKind? i.head.kind with
  | none => exact .fail _ h
  | some op =>
    have hne : i.head.kind ≠ .eof := by
      intro hk
      rw [hk] at hop
      cases hop
    rw [h.current_eq hne]
    exact .advance ((he .unary _ _ h.tail).bind fun right c₁ i₁ _ h₁ => .pure _ h₁)

/-- What the rules inside an expression need of the rule for expressions. -/
structure AgreesInside (o : Cursor) (expr : Precedence → Rule Expr) : Prop where
  agrees : AgreesExpr o expr
  takes : Takes (expr .lowest)
  takes_statement : Takes (statement expr)
  takes_pair : Takes (pair expr)

/-- The kind under the cursor chooses the procedure, as it chooses the rule. -/
theorem matches_operand (he : AgreesInside o expr) (h : On o c i) :
    Matches (Before o) (On o) (fun n => Walk.operand n c) (operand expr i) := by
  refine .call (fun n => congrFun (Walk.operand.eq_2 n) c) (.current ?_)
  unfold operand
  rw [peek_bind, h.kind_current]
  -- The cursor stays on an operand of one token; the others are procedures of their own.
  cases hk : i.head.kind
  case ident | string | kwTrue | kwFalse =>
    have hne : i.head.kind ≠ .eof := by rw [hk]; decide
    rw [h.current_eq hne]
    exact .ok _ (.const _) (h.before hne)
  case int =>
    have hne : i.head.kind ≠ .eof := by rw [hk]; decide
    rw [h.current_eq hne]
    show Matches _ _ _ (integer i)
    unfold integer
    rw [peek_bind]
    cases (Text.readInt? i.head.literal.toList).bind fit? with
    | some value => exact .ok _ (.const _) (h.before hne)
    | none =>
      rw [← h.current_eq hne]
      exact .fail _ h
  case lParen =>
    show Matches _ _ _ (grouped expr i)
    unfold grouped
    rw [bind_of_ok (expect_of_eq hk)]
    refine .advance ((he.agrees .lowest _ _ h.tail).bind fun inner c₁ i₁ _ h₁ => ?_)
    exact (Matches.expectPeek (by decide) h₁).bind fun _ c₂ i₂ _ h₂ => .pure _ h₂
  case kwIf => exact matches_conditional he.agrees he.takes_statement h hk
  case kwFn =>
    have hne : i.head.kind ≠ .eof := by rw [hk]; decide
    rw [h.current_eq hne]
    exact matches_functionLiteral he.agrees he.takes_statement (h.before hne) hk
  case lBracket =>
    have hne : i.head.kind ≠ .eof := by rw [hk]; decide
    rw [h.current_eq hne]
    show Matches _ _ _ (arrayLiteral expr i)
    unfold arrayLiteral
    rw [bind_of_ok (expect_of_eq hk)]
    exact (matches_expressions (by decide) he.agrees he.takes (h.before hne)).bind
      fun elements c₁ i₁ _ h₁ => .pure _ h₁
  case lBrace =>
    have hne : i.head.kind ≠ .eof := by rw [hk]; decide
    rw [h.current_eq hne]
    show Matches _ _ _ (hashLiteral expr i)
    unfold hashLiteral
    rw [bind_of_ok (expect_of_eq hk)]
    refine (matches_pairs he.agrees he.takes_pair (h.before hne)).bind fun ps c₁ i₁ _ h₁ => ?_
    exact (Matches.expectPeek (by decide) h₁).bind fun _ c₂ i₂ _ h₂ => .pure _ h₂
  case bang | minus => exact matches_unary he.agrees h
  all_goals
    show Matches _ _ _ (unary expr i)
    unfold unary
    rw [peek_bind, hk]
    exact .fail _ h

/-! ## Operators -/

/-- The cursor is on the operator, and the expression in front of it has been read. -/
theorem matches_operatorAfter (he : AgreesInside o expr) (left : Expr) (h : On o c i) :
    Matches (Before o) (On o) (fun n => Walk.operatorAfter n left c)
      (operatorAfter expr left i) := by
  refine .call (fun n => congrFun (Walk.operatorAfter.eq_2 left n) c) (.current ?_)
  unfold operatorAfter
  rw [peek_bind, h.kind_current]
  cases hk : i.head.kind
  case lParen =>
    have hne : i.head.kind ≠ .eof := by rw [hk]; decide
    rw [h.current_eq hne]
    exact (matches_expressions (by decide) he.agrees he.takes (h.before hne)).bind
      fun arguments c₁ i₁ _ h₁ => .pure _ h₁
  case lBracket =>
    have hne : i.head.kind ≠ .eof := by rw [hk]; decide
    rw [h.current_eq hne]
    refine .advance ((he.agrees .lowest _ _ h.tail).bind fun index c₁ i₁ _ h₁ => ?_)
    exact (Matches.expectPeek (by decide) h₁).bind fun _ c₂ i₂ _ h₂ => .pure _ h₂
  case eq | notEq | lt | gt | plus | minus | asterisk | slash =>
    have hne : i.head.kind ≠ .eof := by rw [hk]; decide
    rw [h.current_eq hne]
    exact .advance ((he.agrees _ _ _ h.tail).bind fun right c₁ i₁ _ h₁ => .pure _ h₁)
  all_goals exact .fail _ h

/--
The test for a semicolon in front of the loop is no test of its own, since a semicolon binds
nothing.
-/
theorem not_lt_ofKind_semicolon (above : Precedence) : ¬above < .ofKind .semicolon :=
  Nat.not_lt_zero above.rank

/-- Before the input, on a level of its own. -/
def BeforeSome (o c : Cursor) (i : Input) : Prop := ∃ n, Before (o.atLevel n) c i

/-- On the input, on a level of its own. -/
def OnSome (o c : Cursor) (i : Input) : Prop := ∃ n, On (o.atLevel n) c i

section Levels

variable {x : Nat → Option (Except Diagnostic Expr × Cursor)}
  {y : EStateM.Result Diagnostic Input Expr}

/-- A level that was opened inside may be left open. -/
theorem matches_onSome {n : Nat} (h : Matches (Before (o.atLevel n)) (On (o.atLevel n)) x y) :
    Matches (Before (o.atLevel n)) (OnSome o) x y :=
  h.mono (fun _ _ => id) fun _ _ hf => ⟨n, hf⟩

/-- No level is left. -/
theorem matches_fail_openLevel {f : Nat → Unit → Walk Expr} (hn : maxNesting ≤ c.nesting)
    (h : OnSome o c i) :
    Matches (BeforeSome o) (OnSome o) (fun n => (Walk.openLevel >>= f n) c)
      (Rule.fail (.nestedTooDeeply maxNesting) i) := by
  obtain ⟨n, h⟩ := h
  have hopened : OnSome o (c.atLevel (c.nesting + 1)) i := ⟨_, h.atLevel (c.nesting + 1)⟩
  simp only [Walk.bind_of_error (Walk.openLevel_of_le hn)]
  exact .error _ (.const _) hopened

/-- The levels are given back. -/
theorem matches_atLevel (h : Matches (BeforeSome o) (OnSome o) x y) :
    Matches (Before o) (On o) (fun n => (x n).map fun p => (p.1, p.2.atLevel o.nesting)) y := by
  cases h with
  | ok a hw hs =>
    obtain ⟨n, hs⟩ := hs
    exact .ok a (hw.map rfl) (hs.atLevel o.nesting)
  | error reason hw hf =>
    obtain ⟨n, hf⟩ := hf
    exact .error reason (hw.map rfl) (hf.atLevel o.nesting)

end Levels

/--
Each operator opens a level, so these cursors come to stand on levels of their own. It is for the
expression around them to give these back.
-/
theorem matches_operators : ∀ (levels n : Nat) (above : Precedence) (left : Expr) {c : Cursor}
    {i : Input}, levels = maxNesting - n →
      (∀ m, n < m → m ≤ maxNesting → AgreesInside (o.atLevel m) (expression (maxNesting - m))) →
      Before (o.atLevel n) c i →
      Matches (BeforeSome o) (OnSome o) (fun k => Walk.operators k above left c)
        (operators levels above left i)
  | levels, n, above, left, c, i, hn, he, h => by
    have hnesting : c.advance.nesting = n := h.advance.follows.nesting
    -- The procedure tests for a semicolon first, which binds nothing anyway.
    have hguard : (i.head.kind ≠ .semicolon ∧ above < .ofKind i.head.kind) ↔
        above < .ofKind i.head.kind := by
      refine and_iff_right_of_imp fun hlt hk => ?_
      rw [hk] at hlt
      exact not_lt_ofKind_semicolon above hlt
    refine .call (fun k => congrFun (Walk.operators.eq_2 above left k) c) (.peek ?_)
    simp only [h.kind_peek, hguard]
    cases levels with
    | zero =>
      unfold operators
      rw [peekKind_bind]
      by_cases hlt : above < .ofKind i.head.kind
      · simp only [if_pos hlt, Walk.advance_bind]
        exact matches_fail_openLevel (by omega) ⟨n, h.advance⟩
      · simp only [if_neg hlt]
        exact .pure left ⟨n, h⟩
    | succ levels =>
      unfold operators
      rw [peekKind_bind]
      by_cases hlt : above < .ofKind i.head.kind
      · have hlevels : levels = maxNesting - (n + 1) := by omega
        simp only [if_pos hlt, Walk.advance_bind,
          Walk.bind_of_ok (Walk.openLevel_of_lt (show c.advance.nesting < _ by omega)), hnesting]
        have hafter := matches_operatorAfter (he (n + 1) (by omega) (by omega)) left
          (h.advance.atLevel (n + 1))
        rw [← hlevels] at hafter
        refine (matches_onSome hafter).bind fun whole c₁ i₁ _ h₁ => ?_
        exact matches_operators levels (n + 1) above whole hlevels
          (fun m hm hle => he m (by omega) hle) h₁
      · simp only [if_neg hlt]
        exact .pure left ⟨n, h⟩

/-! ## Expressions -/

/-- An expression on a level of its own: the levels below it agree by induction. -/
theorem matches_level {levels : Nat} (above : Precedence) (hn : levels = maxNesting - o.nesting)
    (he : ∀ m, o.nesting < m → m ≤ maxNesting →
      AgreesInside (o.atLevel m) (expression (maxNesting - m))) (h : On o c i) :
    Matches (BeforeSome o) (OnSome o) (fun n => Walk.level n above c)
      (expression levels above i) := by
  have hnesting : c.nesting = o.nesting := h.follows.nesting
  refine .call (fun n => congrFun (Walk.level.eq_2 above n) c) ?_
  cases levels with
  | zero =>
    rw [expression]
    exact matches_fail_openLevel (by omega) ⟨o.nesting, h⟩
  | succ levels =>
    have hlevels : levels = maxNesting - (o.nesting + 1) := by omega
    simp only [Walk.bind_of_ok (Walk.openLevel_of_lt (show c.nesting < _ by omega)), hnesting]
    rw [expression]
    have hoperand := matches_operand (he (o.nesting + 1) (by omega) (by omega))
      (h.atLevel (o.nesting + 1))
    rw [← hlevels] at hoperand
    refine (matches_onSome hoperand).bind fun left c₁ i₁ _ h₁ => ?_
    exact matches_operators levels (o.nesting + 1) above left hlevels
      (fun m hm hle => he m (by omega) hle) h₁

/-- However an expression ends, the levels that were opened in it are given back. -/
theorem walk_expression_eq (n : Nat) (above : Precedence) (c : Cursor) :
    Walk.expression (n + 1) above c =
      (Walk.level n above c).map fun p => (p.1, p.2.atLevel c.nesting) := by
  rw [Walk.expression]
  show (Walk.level n above c).bind _ = _
  cases Walk.level n above c <;> rfl

/-- A cursor reads the expressions that the rule reads with the levels that are left to it. -/
theorem agreesExpr (o : Cursor) : AgreesExpr o (expression (maxNesting - o.nesting)) := by
  induction hn : maxNesting - o.nesting using Nat.strongRecOn generalizing o with
  | ind levels ih =>
    intro above c i h
    have hinside : ∀ m, o.nesting < m → m ≤ maxNesting →
        AgreesInside (o.atLevel m) (expression (maxNesting - m)) := fun m hm hle =>
      ⟨ih _ (by omega) _ rfl, takes_expression _, takes_statement _, takes_pair _⟩
    refine .call (fun n => walk_expression_eq n above c) ?_
    rw [h.follows.nesting]
    exact matches_atLevel (matches_level above hn.symm hinside h)

/-- On every level, a cursor reads a statement as the rule does with the levels that are left. -/
theorem matches_statement_expression (h : On o c i) :
    Matches (Before o) (On o) (fun n => Walk.statement n c)
      (statement (expression (maxNesting - o.nesting)) i) :=
  matches_statement (agreesExpr o) h

/--
A single expression. Where it is read up to the end, the cursor may be on another end of input than
the one of the input.
-/
theorem matches_wholeExpression (hn : o.nesting = 0) (h : On o c i) :
    Matches (fun _ _ => True) (On o) (fun n => Walk.wholeExpression n c) (wholeExpression i) := by
  have he := agreesExpr o .lowest c i h
  rw [hn, Nat.sub_zero] at he
  unfold Walk.wholeExpression wholeExpression
  refine he.bind fun e c₁ i₁ _ h₁ => ?_
  refine (matches_optionalSemicolon h₁).bind fun _ c₂ i₂ _ h₂ => ?_
  refine Matches.expectPeek_bind h₂ (fun hk => ?_) fun hk => ?_
  · rw [bind_of_ok (expect_of_eq hk)]
    exact .pure e trivial
  · exact bind_of_error (expect_of_ne hk)

end Ember.Grammar
