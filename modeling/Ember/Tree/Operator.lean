import Ember.Token.Kind

/-!
# Operators

The operators that stand before one operand and those that stand between two.
-/

namespace Ember

/-- An operator with one operand. -/
inductive UnaryOp where
  | not
  | neg
deriving DecidableEq

namespace UnaryOp

/-- The operator that a token stands for where an operand may begin. -/
def ofKind? : Kind → Option UnaryOp
  | .bang => some not
  | .minus => some neg
  | _ => none

/-- How the operator is written. -/
def symbol : UnaryOp → String
  | not => "!"
  | neg => "-"

/-- The kind of token that the operator is read from. -/
def kind : UnaryOp → Kind
  | not => .bang
  | neg => .minus

@[simp] theorem ofKind?_kind (op : UnaryOp) : ofKind? op.kind = some op := by
  cases op <;> rfl

theorem ofKind?_eq_some_iff {k : Kind} {op : UnaryOp} : ofKind? k = some op ↔ k = op.kind := by
  cases k <;> cases op <;> simp [ofKind?, kind]

end UnaryOp

/-- An operator with two operands. -/
inductive BinaryOp where
  | add
  | sub
  | mul
  | div
  | lt
  | gt
  | eq
  | notEq
deriving DecidableEq

namespace BinaryOp

/-- The operator that a token stands for between two operands. -/
def ofKind? : Kind → Option BinaryOp
  | .plus => some add
  | .minus => some sub
  | .asterisk => some mul
  | .slash => some div
  | .lt => some lt
  | .gt => some gt
  | .eq => some eq
  | .notEq => some notEq
  | _ => none

/-- How the operator is written. -/
def symbol : BinaryOp → String
  | add => "+"
  | sub => "-"
  | mul => "*"
  | div => "/"
  | lt => "<"
  | gt => ">"
  | eq => "=="
  | notEq => "!="

/-- Whether the operator compares its operands. -/
def isComparison : BinaryOp → Bool
  | lt | gt | eq | notEq => true
  | add | sub | mul | div => false

/-- The kind of token that the operator is read from. -/
def kind : BinaryOp → Kind
  | add => .plus
  | sub => .minus
  | mul => .asterisk
  | div => .slash
  | lt => .lt
  | gt => .gt
  | eq => .eq
  | notEq => .notEq

@[simp] theorem ofKind?_kind (op : BinaryOp) : ofKind? op.kind = some op := by
  cases op <;> rfl

theorem ofKind?_eq_some_iff {k : Kind} {op : BinaryOp} : ofKind? k = some op ↔ k = op.kind := by
  cases k <;> cases op <;> simp [ofKind?, kind]

end BinaryOp

end Ember
