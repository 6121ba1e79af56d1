import Ember.Proofs.Grammar.Soundness
import Ember.Proofs.Parser.Local

/-!
# The grammar is local

Every rule of the grammar looks one token ahead and closes the braces it opens
(`local_expression`, `local_statement`). A statement inside braces may take its semicolon there; a
statement outside of all braces is the subject of the recovery modules.

The rules are proved local for any rule for expressions that is local and takes a token, and
`local_expression` closes the circle by induction on the levels that are left.
-/

namespace Ember.Grammar

open Rule

variable {a b : Nat} {i : Input} {expr : Precedence → Rule Expr}

/-- An expression is local at any number of open braces, and leaves them as they are. -/
def LocalExpr (expr : Precedence → Rule Expr) : Prop :=
  ∀ above a i, i.Ended → Local a a (expr above) i

/-! ## Statements inside braces -/

/-- A semicolon may end a statement here because a brace is open. -/
theorem local_terminator (hi : i.Ended) : Local (a + 1) (a + 1) terminator i := by
  unfold terminator
  refine .peekKind ?_
  split
  · exact .pure ()
  · exact .pure ()
  · exact (Local.expect hi rfl).discard hi

theorem local_optionalSemicolon (hi : i.Ended) :
    Local (a + 1) (a + 1) optionalSemicolon i := by
  unfold optionalSemicolon
  refine .peekKind ?_
  split
  · next h => exact (Local.advance hi (by rw [h]; rfl)).discard hi
  · exact .pure ()

/-- The keyword, the name and the expression leave the braces as they are, and so does the end. -/
theorem local_statement (he : LocalExpr expr) (hi : i.Ended) :
    Local (a + 1) (a + 1) (statement expr) i := by
  unfold statement
  refine .peekKind ?_
  split
  · next h =>
    refine (Local.advance hi (by rw [h]; rfl)).andThen hi ?_
    intro token j hj
    refine (Local.expect hj rfl).andThen hj ?_
    intro name k hk
    refine (Local.expect hk rfl).andThen hk ?_
    intro _ l hl
    refine (he .lowest _ l hl).andThen hl ?_
    intro value m hm
    exact (local_terminator hm).andThen hm fun _ _ _ => .pure _
  · next h =>
    refine (Local.advance hi (by rw [h]; rfl)).andThen hi ?_
    intro token j hj
    refine (he .lowest _ j hj).andThen hj ?_
    intro value k hk
    exact (local_terminator hk).andThen hk fun _ _ _ => .pure _
  · refine (he .lowest _ i hi).andThen hi ?_
    intro value j hj
    exact (local_optionalSemicolon hj).andThen hj fun _ _ _ => .pure _

/-- Between its braces a block is one brace further in, and it comes out again. -/
theorem local_block (he : LocalExpr expr) (ht : Takes (statement expr)) (hi : i.Ended) :
    Local a a (block expr) i := by
  unfold block
  refine (Local.expect hi rfl : Local a (a + 1) _ i).andThen hi ?_
  intro token j hj
  refine (Local.whileNext ht (fun k hk _ => local_statement he hk) hj).andThen hj ?_
  intro statements k hk
  exact (Local.expect hk rfl).andThen hk fun _ _ _ => .pure _

/-! ## Lists -/

theorem local_afterComma {α : Type} {item : Rule α}
    (hitem : ∀ i : Input, i.Ended → Local a a item i) (hi : i.Ended) :
    Local a a (afterComma item) i :=
  (Local.expect hi rfl).andThen hi fun _ j hj => hitem j hj

/--
Neither parenthesis nor bracket changes how many braces are open, so a list leaves as many as its
items do.
-/
theorem local_separated {α : Type} {item : Rule α} {closing : Kind}
    (hclosing : closing = .rParen ∨ closing = .rBracket) (ht : Takes item)
    (hitem : ∀ i : Input, i.Ended → Local a a item i) (hi : i.Ended) :
    Local a a (separated item closing) i := by
  have hnest : nestKind closing a = some a := by rcases hclosing with rfl | rfl <;> rfl
  unfold separated
  refine .peekKind ?_
  split
  · next h =>
    exact (Local.advance hi (by rw [h]; exact hnest)).andThen hi
      fun _ _ _ => .pure []
  · refine (hitem i hi).andThen hi ?_
    intro first j hj
    refine (Local.whileNext (takes_afterComma ht)
      (fun k hk _ => local_afterComma hitem hk) hj).andThen hj ?_
    intro others k hk
    exact (Local.expect hk hnest).andThen hk fun _ _ _ => .pure _

/-- Parameters have no braces in them. -/
theorem local_parameters (hi : i.Ended) : Local a a parameters i := by
  unfold parameters
  refine (Local.expect hi rfl).andThen hi ?_
  intro _ j hj
  refine local_separated (.inl rfl) takes_parameter ?_ hj
  intro k hk
  exact (Local.expect hk rfl).andThen hk fun _ _ _ => .pure _

theorem local_pair (he : LocalExpr expr) (hi : i.Ended) : Local a a (pair expr) i := by
  unfold pair
  refine (he .lowest _ i hi).andThen hi ?_
  intro key j hj
  refine (Local.expect hj rfl).andThen hj ?_
  intro _ k hk
  refine (he .lowest _ k hk).andThen hk ?_
  intro value l hl
  refine .peekKind ?_
  split
  · refine ((Local.expect hl rfl).discard hl).andThen hl ?_
    intro _ _ _
    exact .pure _
  · exact .pure _

/-! ## Operands -/

/-- Whether a numeral fits is decided by the token in front, which a failure reports. -/
theorem local_integer (hi : i.Ended) (hk : i.head.kind = .int) : Local a a integer i := by
  unfold integer
  refine .peek ?_
  split
  · exact (Local.advance hi (by rw [hk]; rfl)).andThen hi
      fun _ _ _ => .pure _
  · exact .fail _

theorem local_grouped (he : LocalExpr expr) (hi : i.Ended) : Local a a (grouped expr) i := by
  unfold grouped
  refine (Local.expect hi rfl).andThen hi ?_
  intro _ j hj
  refine (he .lowest _ j hj).andThen hj ?_
  intro inner k hk
  exact (Local.expect hk rfl).andThen hk fun _ _ _ => .pure _

/-- Whether there is an alternative is decided by the token behind the first block. -/
theorem local_conditional (he : LocalExpr expr) (ht : Takes (statement expr)) (hi : i.Ended) :
    Local a a (conditional expr) i := by
  unfold conditional
  refine (Local.expect hi rfl).andThen hi ?_
  intro token j hj
  refine (local_grouped he hj).andThen hj ?_
  intro condition k hk
  refine (local_block he ht hk).andThen hk ?_
  intro consequence l hl
  refine .peekKind ?_
  split
  · next h =>
    refine (Local.advance hl (by rw [h]; rfl)).andThen hl ?_
    intro _ m hm
    exact (local_block he ht hm).andThen hm fun _ _ _ => .pure _
  · exact .pure _

theorem local_functionLiteral (he : LocalExpr expr) (ht : Takes (statement expr)) (hi : i.Ended) :
    Local a a (functionLiteral expr) i := by
  unfold functionLiteral
  refine (Local.expect hi rfl).andThen hi ?_
  intro token j hj
  refine (local_parameters hj).andThen hj ?_
  intro names k hk
  exact (local_block he ht hk).andThen hk fun _ _ _ => .pure _

theorem local_arrayLiteral (he : LocalExpr expr) (ht : Takes (expr .lowest)) (hi : i.Ended) :
    Local a a (arrayLiteral expr) i := by
  unfold arrayLiteral
  refine (Local.expect hi rfl).andThen hi ?_
  intro token j hj
  exact (local_separated (.inr rfl) ht (he .lowest _) hj).andThen hj fun _ _ _ => .pure _

/-- The braces of a hash literal are open while its pairs are read. -/
theorem local_hashLiteral (he : LocalExpr expr) (ht : Takes (pair expr)) (hi : i.Ended) :
    Local a a (hashLiteral expr) i := by
  unfold hashLiteral
  refine (Local.expect hi rfl : Local a (a + 1) _ i).andThen hi ?_
  intro token j hj
  refine (Local.whileNext ht (fun k hk _ => local_pair he hk) hj).andThen hj ?_
  intro pairs k hk
  exact (Local.expect hk rfl).andThen hk fun _ _ _ => .pure _

/-- No operator opens or closes a brace. -/
theorem nestKind_of_unaryOp {kind : Kind} {op : UnaryOp} (h : UnaryOp.ofKind? kind = some op) :
    nestKind kind a = some a := by
  rw [UnaryOp.ofKind?_eq_some_iff.mp h]
  cases op <;> rfl

/-- No operator is a brace, a semicolon or an end of input. -/
theorem nestKind_of_binaryOp {kind : Kind} {op : BinaryOp}
    (h : BinaryOp.ofKind? kind = some op) : nestKind kind a = some a := by
  rw [BinaryOp.ofKind?_eq_some_iff.mp h]
  cases op <;> rfl

theorem local_unary (he : LocalExpr expr) (hi : i.Ended) : Local a a (unary expr) i := by
  unfold unary
  refine .peek ?_
  split
  · next h =>
    refine (Local.advance hi (nestKind_of_unaryOp h)).andThen hi ?_
    intro _ j hj
    exact (he .unary _ j hj).andThen hj fun _ _ _ => .pure _
  · exact .fail _

/-! ## Expressions -/

/-- What the rules ask of the rule for expressions. -/
structure Tractable (expr : Precedence → Rule Expr) : Prop where
  isLocal : LocalExpr expr
  takes : Takes (expr .lowest)
  takes_statement : Takes (statement expr)
  takes_pair : Takes (pair expr)

/-- Each operand is read by a rule that is local, so the choice between them is. -/
theorem local_operand (he : Tractable expr) (hi : i.Ended) : Local a a (operand expr) i := by
  have htoken : ∀ e : Expr, nestKind i.head.kind a = some a →
      Local a a (advance >>= fun _ => pure e) i := by
    intro e hnest
    exact (Local.advance hi hnest).andThen hi fun _ _ _ => .pure e
  unfold operand
  refine .peek ?_
  split
  · next h => exact htoken _ (by rw [h]; rfl)
  · next h => exact local_integer hi h
  · next h => exact htoken _ (by rw [h]; rfl)
  · next h => exact htoken _ (by rw [h]; rfl)
  · next h => exact htoken _ (by rw [h]; rfl)
  · exact local_grouped he.isLocal hi
  · exact local_conditional he.isLocal he.takes_statement hi
  · exact local_functionLiteral he.isLocal he.takes_statement hi
  · exact local_arrayLiteral he.isLocal he.takes hi
  · exact local_hashLiteral he.isLocal he.takes_pair hi
  · exact local_unary he.isLocal hi

/--
The operator that is applied is the next token, and its operands leave the braces as they are.
-/
theorem local_operatorAfter (he : Tractable expr) (left : Expr) (hi : i.Ended) :
    Local a a (operatorAfter expr left) i := by
  unfold operatorAfter
  refine .peek ?_
  split
  · next h =>
    refine (Local.advance hi (by rw [h]; rfl)).andThen hi ?_
    intro _ j hj
    exact (local_separated (.inl rfl) he.takes (he.isLocal .lowest _) hj).andThen hj
      fun _ _ _ => .pure _
  · next h =>
    refine (Local.advance hi (by rw [h]; rfl)).andThen hi ?_
    intro _ j hj
    refine (he.isLocal .lowest _ j hj).andThen hj ?_
    intro index k hk
    exact (Local.expect hk rfl).andThen hk fun _ _ _ => .pure _
  · split
    · next h =>
      refine (Local.advance hi (nestKind_of_binaryOp h)).andThen hi ?_
      intro _ j hj
      exact (he.isLocal _ _ j hj).andThen hj fun _ _ _ => .pure _
    · exact .fail _

/-- Of the rule for expressions, only that it is local is still to be shown. -/
theorem tractable (levels : Nat) (h : LocalExpr (expression levels)) :
    Tractable (expression levels) :=
  ⟨h, takes_expression levels, takes_statement levels, takes_pair levels⟩

/-- The operators of a chain are local when the expressions in them are. -/
theorem local_operators : ∀ (levels : Nat) (above : Precedence) (left : Expr) (i : Input),
    (∀ l < levels, LocalExpr (expression l)) → i.Ended →
      Local a a (operators levels above left) i
  | 0, above, left, i, _, _ => by
    unfold operators
    refine .peekKind ?_
    split
    · exact .fail _
    · exact .pure left
  | levels + 1, above, left, i, he, hi => by
    unfold operators
    refine .peekKind ?_
    split
    · refine (local_operatorAfter (tractable levels (he levels (by omega))) left hi).andThen hi ?_
      intro whole j hj
      exact local_operators levels above whole j (fun l hl => he l (by omega)) hj
    · exact .pure left

/-- However many levels there are, what an expression reads may be moved to another place. -/
theorem local_expression (levels : Nat) : LocalExpr (expression levels) := by
  induction levels using Nat.strongRecOn with
  | ind levels ih =>
    intro above a i hi
    cases levels with
    | zero => exact .fail _
    | succ levels =>
      unfold expression
      refine (local_operand (tractable levels (ih levels (by omega))) hi).andThen hi ?_
      intro left j hj
      exact local_operators levels above left j (fun l hl => ih l (by omega)) hj

end Ember.Grammar
