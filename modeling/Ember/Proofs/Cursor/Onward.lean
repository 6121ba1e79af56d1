import Ember.Proofs.Cursor.Recovery
import Mathlib.Order.Defs.Unbundled

/-!
# The cursor never moves back

However a walk ends, from whatever cursor and at whatever depth of calls, it leaves the cursor where
it was or further on in the same list. A rule also leaves as many levels open as it found. The
exceptions are `openLevel` and the two walks that use it: they leave levels open, and the expression
around them gives these back.

So there are two relations between the cursor before a walk and the one after it, `Steady` and the
weaker `Onward`. Both are preorders, so what keeps one of them may be put in a row (`Keeps.bind`),
and the rules, which call each other, are followed together by induction on the depth of the calls
(`steadyAt`).
-/

namespace Ember

namespace Cursor

/-! ## Moving on -/

/-- `d` is where `c` is or further on, with at least as many levels open. -/
structure Onward (c d : Cursor) : Prop where
  tokens : d.tokens = c.tokens
  position : c.position ≤ d.position
  nesting : c.nesting ≤ d.nesting

/-- `d` is where `c` is or further on, with as many levels open. -/
structure Steady (c d : Cursor) : Prop where
  tokens : d.tokens = c.tokens
  position : c.position ≤ d.position
  nesting : d.nesting = c.nesting

instance : IsPreorder Cursor Onward where
  refl _ := ⟨rfl, Nat.le_refl _, Nat.le_refl _⟩
  trans _ _ _ h h' := ⟨h'.tokens.trans h.tokens, h.position.trans h'.position,
    h.nesting.trans h'.nesting⟩

instance : IsPreorder Cursor Steady where
  refl _ := ⟨rfl, Nat.le_refl _, rfl⟩
  trans _ _ _ h h' := ⟨h'.tokens.trans h.tokens, h.position.trans h'.position,
    h'.nesting.trans h.nesting⟩

variable {c d : Cursor}

theorem Steady.onward (h : Steady c d) : Onward c d := ⟨h.tokens, h.position, h.nesting.ge⟩

/-- With the levels given back, nothing but the position has changed. -/
theorem Onward.steady (h : Onward c d) : Steady c (d.atLevel c.nesting) :=
  ⟨h.tokens, h.position, rfl⟩

/-- One token further on, and nothing else changes. -/
theorem steady_advance (c : Cursor) : Steady c c.advance := by
  refine ⟨?_, position_le_advance c, ?_⟩ <;> unfold advance <;> split <;> rfl

end Cursor

/-- The procedure leaves the cursor where it is or where `R` lets it go. -/
def Keeps {β : Type} (R : Cursor → Cursor → Prop) (w : Cursor → Option (β × Cursor)) : Prop :=
  ∀ ⦃c b d⦄, w c = some (b, d) → R c d

namespace Keeps

open Cursor

/-! ## Commands -/

section Commands

variable {α β : Type} {R : Cursor → Cursor → Prop} {w : Walk α}

theorem onward (h : Keeps Steady w) : Keeps Onward w := fun _ _ _ hw => (h hw).onward

/-- A call that may go no deeper ends nowhere. -/
theorem tooDeep : Keeps R (Walk.tooDeep : Walk α) := fun _ _ _ hw => nomatch hw

/-- Looking at a token does not move the cursor. -/
theorem current {f : Token → Walk β} (h : ∀ t, Keeps R (f t)) : Keeps R (Walk.current >>= f) :=
  fun c _ _ hw => h c.current hw

theorem peek {f : Token → Walk β} (h : ∀ t, Keeps R (f t)) : Keeps R (Walk.peek >>= f) :=
  fun c _ _ hw => h c.peek hw

theorem ite {p : Prop} [Decidable p] {v : Walk α} (hw : Keeps R w) (hv : Keeps R v) :
    Keeps R (if p then w else v) := by
  split <;> assumption

variable [IsPreorder Cursor R]

theorem pure (a : α) : Keeps R (pure a : Walk α) := by
  intro c b d hw
  cases hw
  exact refl_of R c

theorem throw (e : Diagnostic) : Keeps R (throw e : Walk α) := by
  intro c b d hw
  cases hw
  exact refl_of R c

/-- Two walks in a row, of which the second is not made where the first one fails. -/
theorem bind {f : α → Walk β} (hw : Keeps R w) (hf : ∀ a, Keeps R (f a)) : Keeps R (w >>= f) := by
  intro c b e h
  obtain ⟨⟨result, d⟩, hd, he⟩ := Option.bind_eq_some_iff.mp h
  cases result with
  | ok a => exact trans_of R (hw hd) (hf a he)
  | error reported =>
    -- The cursor stays where the first walk has left it.
    cases he
    exact hw hd

/-- Dropping the answer leaves the cursor where it is. -/
theorem discard (hw : Keeps R w) : Keeps R (Functor.discard w : Walk Unit) := by
  rw [Walk.discard_eq]
  exact hw.bind fun _ => .pure ()

theorem advance : Keeps Steady Walk.advance := by
  intro c b d hw
  cases hw
  exact steady_advance c

theorem expectPeek (kind : Kind) : Keeps Steady (Walk.expectPeek kind) :=
  .peek fun found => .bind .advance fun _ => .ite (.pure found) (.throw _)

theorem expectCurrent (kind : Kind) : Keeps Steady (Walk.expectCurrent kind) :=
  .current fun found => .ite (.pure found) (.throw _)

/-- A level is opened even where there is none left. -/
theorem openLevel : Keeps Onward Walk.openLevel := by
  intro c b d hw
  have hopened : d = c.atLevel (c.nesting + 1) := by
    rcases Nat.lt_or_ge c.nesting maxNesting with h | h
    · rw [Walk.openLevel_of_lt h] at hw
      cases hw
      rfl
    · rw [Walk.openLevel_of_le h] at hw
      cases hw
      rfl
  rw [hopened]
  exact ⟨rfl, Nat.le_refl _, Nat.le_succ _⟩

end Commands

/-! ## Rules without expressions -/

/-- The end of a statement is at most one step. -/
theorem terminator : Keeps Steady Walk.terminator := by
  refine .peek fun t => ?_
  split
  · exact .pure ()
  · exact .pure ()
  · exact (expectPeek .semicolon).discard

theorem optionalSemicolon : Keeps Steady Walk.optionalSemicolon :=
  .peek fun _ => .ite .advance (.pure ())

theorem nextParameter : Keeps Steady Walk.nextParameter :=
  .bind .advance fun _ => .bind .advance fun _ => .bind (expectCurrent .ident) fun _ => .pure _

theorem moreParameters : ∀ n, Keeps Steady (Walk.moreParameters n)
  | 0 => .tooDeep
  | n + 1 => .peek fun _ =>
    .ite (.bind nextParameter fun _ => .bind (moreParameters n) fun _ => .pure _) (.pure [])

theorem parameters (n : Nat) : Keeps Steady (Walk.parameters n) := by
  refine .peek fun _ => .ite (.bind .advance fun _ => .pure []) ?_
  refine .bind .advance fun _ => .bind (expectCurrent .ident) fun _ => ?_
  exact .bind (moreParameters n) fun _ => .bind (expectPeek .rParen) fun _ => .pure _

end Keeps

/-! ## The rules together -/

/-- What the rules keep when calls may go so deep. -/
structure SteadyAt (n : Nat) : Prop where
  statement : Keeps Cursor.Steady (Walk.statement n)
  blockStatement : Keeps Cursor.Steady (Walk.blockStatement n)
  blockStatements : Keeps Cursor.Steady (Walk.blockStatements n)
  block : Keeps Cursor.Steady (Walk.block n)
  nextExpression : Keeps Cursor.Steady (Walk.nextExpression n)
  moreExpressions : Keeps Cursor.Steady (Walk.moreExpressions n)
  expressions : ∀ closing, Keeps Cursor.Steady (Walk.expressions n closing)
  nextPair : Keeps Cursor.Steady (Walk.nextPair n)
  pairs : Keeps Cursor.Steady (Walk.pairs n)
  conditional : Keeps Cursor.Steady (Walk.conditional n)
  unary : Keeps Cursor.Steady (Walk.unary n)
  operand : Keeps Cursor.Steady (Walk.operand n)
  operatorAfter : ∀ left, Keeps Cursor.Steady (Walk.operatorAfter n left)
  operators : ∀ above left, Keeps Cursor.Onward (Walk.operators n above left)
  level : ∀ above, Keeps Cursor.Onward (Walk.level n above)
  expression : ∀ above, Keeps Cursor.Steady (Walk.expression n above)

namespace SteadyAt

open Cursor Keeps

variable {n : Nat}

/-- When no call may be made, none ends anywhere. -/
theorem zero : SteadyAt 0 where
  statement := .tooDeep
  blockStatement := .tooDeep
  blockStatements := .tooDeep
  block := .tooDeep
  nextExpression := .tooDeep
  moreExpressions := .tooDeep
  expressions _ := .tooDeep
  nextPair := .tooDeep
  pairs := .tooDeep
  conditional := .tooDeep
  unary := .tooDeep
  operand := .tooDeep
  operatorAfter _ := .tooDeep
  operators _ _ := .tooDeep
  level _ := .tooDeep
  expression _ := .tooDeep

/-- Every statement is steps and the expression in it. -/
theorem statement_succ (h : SteadyAt n) : Keeps Steady (Walk.statement (n + 1)) := by
  rw [Walk.statement]
  refine .current fun token => ?_
  split
  · refine .bind (.expectPeek .ident) fun _ => .bind (.expectPeek .assign) fun _ => ?_
    exact .bind .advance fun _ => .bind (h.expression _) fun _ => .bind .terminator fun _ => .pure _
  · exact .bind .advance fun _ => .bind (h.expression _) fun _ => .bind .terminator fun _ => .pure _
  · exact .bind (h.expression _) fun _ => .bind .optionalSemicolon fun _ => .pure _

/-- A block goes on from where its last statement ended. -/
theorem blockStatements_succ (h : SteadyAt n) : Keeps Steady (Walk.blockStatements (n + 1)) := by
  rw [Walk.blockStatements]
  refine .current fun token => .ite (.pure []) (.ite (.throw _) ?_)
  exact .bind h.blockStatement fun _ => .bind h.blockStatements fun _ => .pure _

theorem moreExpressions_succ (h : SteadyAt n) : Keeps Steady (Walk.moreExpressions (n + 1)) := by
  rw [Walk.moreExpressions]
  refine .peek fun _ => .ite ?_ (.pure [])
  exact .bind h.nextExpression fun _ => .bind h.moreExpressions fun _ => .pure _

/-- The first item, the others, and a step onto the closing token. -/
theorem expressions_succ (h : SteadyAt n) (closing : Kind) :
    Keeps Steady (Walk.expressions (n + 1) closing) := by
  rw [Walk.expressions]
  refine .peek fun _ => .ite (.bind .advance fun _ => .pure []) ?_
  refine .bind .advance fun _ => .bind (h.expression _) fun _ => ?_
  exact .bind h.moreExpressions fun _ => .bind (.expectPeek closing) fun _ => .pure _

theorem nextPair_succ (h : SteadyAt n) : Keeps Steady (Walk.nextPair (n + 1)) := by
  rw [Walk.nextPair]
  refine .bind .advance fun _ => .bind (h.expression _) fun _ => ?_
  refine .bind (.expectPeek .colon) fun _ => .bind .advance fun _ => ?_
  refine .bind (h.expression _) fun _ => .peek fun _ => .ite ?_ (.pure _)
  exact .bind (Keeps.expectPeek .comma).discard fun _ => .pure _

/-- A pair at a time, each from the token behind the one before. -/
theorem pairs_succ (h : SteadyAt n) : Keeps Steady (Walk.pairs (n + 1)) := by
  rw [Walk.pairs]
  refine .peek fun _ => .ite (.pure []) ?_
  exact .bind h.nextPair fun _ => .bind h.pairs fun _ => .pure _

/-- The condition and one block or two. -/
theorem conditional_succ (h : SteadyAt n) : Keeps Steady (Walk.conditional (n + 1)) := by
  rw [Walk.conditional]
  refine .current fun token => .bind (.expectPeek .lParen) fun _ => .bind .advance fun _ => ?_
  refine .bind (h.expression _) fun _ => .bind (.expectPeek .rParen) fun _ => ?_
  refine .bind (.expectPeek .lBrace) fun _ => .bind h.block fun _ => ?_
  refine .peek fun _ => .ite ?_ (.pure _)
  exact .bind .advance fun _ => .bind (.expectPeek .lBrace) fun _ => .bind h.block fun _ => .pure _

theorem unary_succ (h : SteadyAt n) : Keeps Steady (Walk.unary (n + 1)) := by
  rw [Walk.unary]
  refine .current fun token => ?_
  split
  · exact .bind .advance fun _ => .bind (h.expression _) fun _ => .pure _
  · exact .throw _

/-- Every operand is read by a procedure that keeps the level. -/
theorem operand_succ (h : SteadyAt n) : Keeps Steady (Walk.operand (n + 1)) := by
  rw [Walk.operand]
  refine .current fun token => ?_
  cases token.kind
  case ident | string | kwTrue | kwFalse => exact .pure _
  case int =>
    dsimp only
    split
    · exact .pure _
    · exact .throw _
  case bang | minus => exact h.unary
  case lParen =>
    exact .bind .advance fun _ => .bind (h.expression _) fun _ =>
      .bind (.expectPeek .rParen) fun _ => .pure _
  case kwIf => exact h.conditional
  case kwFn =>
    refine .bind (.expectPeek .lParen) fun _ => .bind (.parameters n) fun _ => ?_
    exact .bind (.expectPeek .lBrace) fun _ => .bind h.block fun _ => .pure _
  case lBracket => exact .bind (h.expressions _) fun _ => .pure _
  case lBrace => exact .bind h.pairs fun _ => .bind (.expectPeek .rBrace) fun _ => .pure _
  all_goals exact .throw _

/-- Each operator is a step and what it is applied to. -/
theorem operatorAfter_succ (h : SteadyAt n) (left : Expr) :
    Keeps Steady (Walk.operatorAfter (n + 1) left) := by
  rw [Walk.operatorAfter]
  refine .current fun token => ?_
  split
  · exact .bind (h.expressions _) fun _ => .pure _
  · exact .bind .advance fun _ => .bind (h.expression _) fun _ =>
      .bind (.expectPeek .rBracket) fun _ => .pure _
  · split
    · exact .bind .advance fun _ => .bind (h.expression _) fun _ => .pure _
    · exact .throw _

/--
The loop opens a level for each operator and does not give it back, so the level may only be said to
grow here.
-/
theorem operators_succ (h : SteadyAt n) (above : Precedence) (left : Expr) :
    Keeps Onward (Walk.operators (n + 1) above left) := by
  rw [Walk.operators]
  refine .peek fun _ => .ite ?_ (.pure left)
  -- The level stays open when the operator has been read.
  refine .bind Keeps.advance.onward fun _ => .bind .openLevel fun _ => ?_
  exact .bind (h.operatorAfter left).onward fun whole => h.operators above whole

/-- An expression gives back what it has opened. -/
theorem expression_succ (h : SteadyAt n) (above : Precedence) :
    Keeps Steady (Walk.expression (n + 1) above) := by
  intro c b d hw
  rw [Grammar.walk_expression_eq] at hw
  obtain ⟨⟨result, e⟩, he, hd⟩ := Option.map_eq_some_iff.mp hw
  cases hd
  exact (h.level above he).steady

theorem succ (h : SteadyAt n) : SteadyAt (n + 1) where
  statement := h.statement_succ
  blockStatement := .bind h.statement fun _ => .bind .advance fun _ => .pure _
  blockStatements := h.blockStatements_succ
  block := .current fun _ => .bind .advance fun _ => .bind h.blockStatements fun _ => .pure _
  nextExpression := .bind .advance fun _ => .bind .advance fun _ => h.expression _
  moreExpressions := h.moreExpressions_succ
  expressions := h.expressions_succ
  nextPair := h.nextPair_succ
  pairs := h.pairs_succ
  conditional := h.conditional_succ
  unary := h.unary_succ
  operand := h.operand_succ
  operatorAfter := h.operatorAfter_succ
  operators := h.operators_succ
  level above := .bind .openLevel fun _ => .bind h.operand.onward fun left => h.operators above left
  expression := h.expression_succ

end SteadyAt

/-- However deep calls may go, no procedure goes back. -/
theorem steadyAt (n : Nat) : SteadyAt n := by
  induction n with
  | zero => exact .zero
  | succ n ih => exact ih.succ

/-! ## Rounds -/

namespace Cursor

variable {c d : Cursor}

/-- What is skipped is passed one token at a time. -/
theorem steady_skip (n : Nat) (depth : Int) : Keeps Steady (skip n depth) := by
  intro c b d h
  induction n generalizing c depth with
  | zero => cases h
  | succ n ih =>
    rw [skip_succ] at h
    split at h
    · cases h
      exact refl_of Steady _
    split at h
    · cases h
      exact steady_advance c
    split at h
    · cases h
      exact refl_of Steady _
    · exact trans_of Steady (steady_advance c) (ih _ h)

/-- Recovery counts braces behind the cursor without going back. -/
theorem steady_resume (n start : Nat) : Keeps Steady (resume n start) := by
  intro c b d h
  rw [resume_eq] at h
  split at h
  · cases h
    exact steady_advance c
  split at h
  · exact steady_skip n _ h
  · exact trans_of Steady (steady_advance c) (steady_skip n _ h)

/-- Neither a statement nor what recovery skips behind it leaves a level open. -/
theorem steady_round (n : Nat) : Keeps Steady (round n) := by
  intro c b d h
  rw [round_eq] at h
  obtain ⟨⟨result, e⟩, he, h⟩ := Option.bind_eq_some_iff.mp h
  obtain ⟨⟨_, f⟩, hf, hd⟩ := Option.bind_eq_some_iff.mp h
  have hstatement := (steadyAt n).statement he
  cases hd
  cases result with
  | ok s =>
    cases hf
    exact trans_of Steady hstatement (steady_advance e)
  | error reported => exact trans_of Steady hstatement (steady_resume n _ hf)

/-- The cursors from which the parser's loop reads a statement of the list. -/
inductive Turn (l : TokenList) : Cursor → Prop
  | first (hne : (start l).current.kind ≠ .eof) : Turn l (start l)
  | next {c d : Cursor} {n : Nat} {result : Except Diagnostic Stmt} (h : Turn l c)
      (hround : round n c = some (result, d)) (hne : d.current.kind ≠ .eof) : Turn l d

/-- Every statement of the program begins in the same list, with no level open. -/
theorem steady_of_turn {l : TokenList} (h : Turn l c) : Steady (start l) c := by
  induction h with
  | first _ => exact refl_of Steady _
  | next _ hround _ ih => exact trans_of Steady ih (steady_round _ hround)

end Cursor

end Ember
