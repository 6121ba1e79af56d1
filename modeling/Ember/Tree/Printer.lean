import Ember.Text.Decimal
import Ember.Tree.Basic

/-!
# The canonical text of a tree

Operators and element accesses are written in parentheses, strings in quotes, bodies in braces, and
every `let`, `return` and expression statement ends with a semicolon, so the text can be read back.
Placeholders have texts that cannot.
-/

namespace Ember

/-- The text of a name. -/
def Identifier.render (i : Identifier) : String :=
  if i.isMissing then "<null identifier>" else i.name

mutual

/-- The text of an expression. -/
def Expr.render : Expr → String
  | .identifier name => name.render
  | .integer _ value => Text.writeInt value.toInt
  | .boolean _ value => if value then "true" else "false"
  | .string _ value => "\"" ++ value ++ "\""
  | .array _ elements => "[" ++ renderList elements ++ "]"
  | .hash _ pairs => "\x7b" ++ renderPairs pairs ++ "\x7d"
  | .unary _ op right => "(" ++ op.symbol ++ right.render ++ ")"
  | .binary _ left op right =>
    "(" ++ left.render ++ " " ++ op.symbol ++ " " ++ right.render ++ ")"
  | .conditional _ condition consequence none =>
    "if (" ++ condition.render ++ ") " ++ consequence.render
  | .conditional _ condition consequence (some alternative) =>
    "if (" ++ condition.render ++ ") " ++ consequence.render ++ " else " ++ alternative.render
  | .function literal => literal.render
  | .call _ callee arguments => callee.render ++ "(" ++ renderList arguments ++ ")"
  | .index _ left index => "(" ++ left.render ++ "[" ++ index.render ++ "])"
  | .missing _ => "<null expression>"

/-- The texts of expressions, a comma between neighbours. -/
def renderList : List Expr → String
  | [] => ""
  | [e] => e.render
  | e :: es => e.render ++ ", " ++ renderList es

/-- The texts of the pairs of a hash literal, a comma between neighbours. -/
def renderPairs : List (Expr × Expr) → String
  | [] => ""
  | [(key, value)] => key.render ++ ": " ++ value.render
  | (key, value) :: pairs => key.render ++ ": " ++ value.render ++ ", " ++ renderPairs pairs

/-- The text of a function literal. -/
def FunctionLiteral.render : FunctionLiteral → String
  | ⟨_, parameters, body⟩ =>
    "fn(" ++ ", ".intercalate (parameters.map Identifier.render) ++ ") " ++ body.render

/-- The text of a block. -/
def Block.render : Block → String
  | ⟨_, statements⟩ => "\x7b" ++ renderBody statements ++ " \x7d"

/-- The texts of the statements of a block, each after a space. -/
def renderBody : List Stmt → String
  | [] => ""
  | s :: ss => " " ++ s.render ++ renderBody ss

/-- The text of a statement. -/
def Stmt.render : Stmt → String
  | .letBinding _ name value => "let " ++ name.render ++ " = " ++ value.render ++ ";"
  | .returning _ value => "return " ++ value.render ++ ";"
  | .expression _ expr => expr.render ++ ";"
  | .block body => body.render
  | .missing _ => "<null statement>"

end

end Ember
