import Ember.Token.Kind

/-!
# Precedence

How tightly an operator binds the operand before it. A token that is no operator binds least of
all, which is what ends an expression.
-/

namespace Ember

/-- Binding power, weakest first. -/
inductive Precedence where
  | lowest
  | equality
  | comparison
  | sum
  | product
  | unary
  | call
  | index
deriving DecidableEq

namespace Precedence

/-- The place of a precedence in the order of binding power. -/
def rank : Precedence → Nat
  | lowest => 0
  | equality => 1
  | comparison => 2
  | sum => 3
  | product => 4
  | unary => 5
  | call => 6
  | index => 7

instance : LT Precedence := ⟨fun p q => p.rank < q.rank⟩

instance (p q : Precedence) : Decidable (p < q) := inferInstanceAs (Decidable (p.rank < q.rank))

/-- How tightly a token binds the operand before it. -/
def ofKind : Kind → Precedence
  | .eq | .notEq => equality
  | .lt | .gt => comparison
  | .plus | .minus => sum
  | .asterisk | .slash => product
  | .lParen => call
  | .lBracket => index
  | _ => lowest

end Precedence

end Ember
