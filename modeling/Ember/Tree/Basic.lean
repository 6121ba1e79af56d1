import Ember.Token.Basic
import Ember.Tree.Operator

/-!
# The syntax tree

Expressions, statements and the blocks that hold statements. Every node keeps the token that
introduced it.

## Placeholders

Where nothing could be parsed a placeholder stands in the tree: `Expr.missing`, `Stmt.missing` and
an identifier with an empty name. A placeholder has a text of its own and cannot be evaluated.
-/

namespace Ember

/-- A name: a variable, the target of a `let` or a parameter. -/
structure Identifier where
  token : Token
  name : String
deriving DecidableEq

namespace Identifier

/-- The name that a token spells. -/
def ofToken (t : Token) : Identifier := ⟨t, t.literal⟩

/-- Whether this is the placeholder for a name. -/
def isMissing (i : Identifier) : Bool := i.name.isEmpty

end Identifier

mutual

/-- An expression. -/
inductive Expr where
  | identifier (name : Identifier)
  | integer (token : Token) (value : Int64)
  | boolean (token : Token) (value : Bool)
  | string (token : Token) (value : String)
  | array (token : Token) (elements : List Expr)
  /-- A hash literal, its pairs in the order of the source. -/
  | hash (token : Token) (pairs : List (Expr × Expr))
  | unary (token : Token) (op : UnaryOp) (right : Expr)
  | binary (token : Token) (left : Expr) (op : BinaryOp) (right : Expr)
  | conditional (token : Token) (condition : Expr) (consequence : Block)
      (alternative : Option Block)
  | function (literal : FunctionLiteral)
  /-- A call, with the token of its opening parenthesis. -/
  | call (token : Token) (callee : Expr) (arguments : List Expr)
  /-- An element access, with the token of its opening bracket. -/
  | index (token : Token) (left : Expr) (index : Expr)
  /-- No expression could be parsed at this token. -/
  | missing (token : Token)

/-- Statements in braces. -/
structure Block where
  token : Token
  statements : List Stmt

/-- Parameters and a body. -/
structure FunctionLiteral where
  token : Token
  parameters : List Identifier
  body : Block

/-- A statement. -/
inductive Stmt where
  | letBinding (token : Token) (name : Identifier) (value : Expr)
  | returning (token : Token) (value : Expr)
  | expression (token : Token) (expr : Expr)
  | block (body : Block)
  /-- No statement could be parsed at this token. -/
  | missing (token : Token)

end

/-- The token that introduced an expression. -/
def Expr.token : Expr → Token
  | identifier name => name.token
  | integer token _ | boolean token _ | string token _ | array token _ | hash token _
  | unary token _ _ | binary token _ _ _ | conditional token _ _ _ | call token _ _
  | index token _ _ | missing token => token
  | function literal => literal.token

/-- Whether this is the placeholder for an expression. -/
def Expr.isMissing : Expr → Bool
  | missing _ => true
  | _ => false

/-- The token that introduced a statement. -/
def Stmt.token : Stmt → Token
  | letBinding token _ _ | returning token _ | expression token _ | missing token => token
  | block body => body.token

/-- The statement that evaluates an expression; its token is that of the expression. -/
def Stmt.ofExpr (e : Expr) : Stmt := .expression e.token e

/-- The number of parameters. -/
def FunctionLiteral.arity (f : FunctionLiteral) : Nat := f.parameters.length

/-- What a placeholder stands for. -/
inductive Placeholder where
  | statement
  | expression
  | program
  | identifier
deriving DecidableEq

/-- The name of a placeholder in messages. -/
def Placeholder.name : Placeholder → String
  | statement => "NullStatement"
  | expression => "NullExpression"
  | program => "NullProgram"
  | identifier => "NullIdentifier"

end Ember
