import Ember.Parser.Precedence
import Ember.Parser.Rule
import Ember.Text.Decimal
import Ember.Tree.Basic
import Ember.Word

/-!
# The grammar

An expression is an operand and the operators that follow it for as long as they bind tighter than
whatever stands before the expression. The rules below are given the rule for expressions as a
parameter; `expression` closes the circle.

## Nesting

Every expression inside an expression and every operator of a chain opens a level, and `maxNesting`
of them may be open at once. `expression` counts the levels that are left, so the limit is also the
reason why parsing ends.
-/

namespace Ember

/-- How many levels of nesting may be open at once. -/
def maxNesting : Nat := 256

namespace Grammar

open Rule

/-! ## Statements -/

/-- The semicolon after a `let` or `return`, which may be left out before a brace or the end. -/
def terminator : Rule Unit := do
  match ← peekKind with
  | .rBrace | .eof => pure ()
  | _ => discard (expect .semicolon)

/-- The semicolon after an expression, which may be left out anywhere. -/
def optionalSemicolon : Rule Unit := do
  if (← peekKind) = .semicolon then discard advance

variable (expr : Precedence → Rule Expr)

/-- A statement: `let`, `return` or an expression. -/
def statement : Rule Stmt := do
  match ← peekKind with
  | .kwLet =>
    let token ← advance
    let name ← expect .ident
    let _ ← expect .assign
    let value ← expr .lowest
    terminator
    pure (.letBinding token (.ofToken name) value)
  | .kwReturn =>
    let token ← advance
    let value ← expr .lowest
    terminator
    pure (.returning token value)
  | _ =>
    let value ← expr .lowest
    optionalSemicolon
    pure (.ofExpr value)

/-- Statements in braces. -/
def block : Rule Block := do
  let token ← expect .lBrace
  let statements ← whileNext (fun kind => kind ≠ .rBrace ∧ kind ≠ .eof) (statement expr)
  let _ ← expect .rBrace
  pure ⟨token, statements⟩

/-! ## Lists -/

/-- What follows a comma. -/
def afterComma {α : Type} (item : Rule α) : Rule α := do
  let _ ← expect .comma
  item

/-- Items with commas between them and a closing token after them. -/
def separated {α : Type} (item : Rule α) (closing : Kind) : Rule (List α) := do
  if (← peekKind) = closing then
    let _ ← advance
    pure []
  else
    let first ← item
    let others ← whileNext (· = .comma) (afterComma item)
    let _ ← expect closing
    pure (first :: others)

/-- Expressions with commas between them and a closing token after them. -/
def expressions (closing : Kind) : Rule (List Expr) := separated (expr .lowest) closing

/-- Parameters in parentheses. -/
def parameters : Rule (List Identifier) := do
  let _ ← expect .lParen
  separated (do return .ofToken (← expect .ident)) .rParen

/-- A key and its value, with the comma after them unless the hash literal ends there. -/
def pair : Rule (Expr × Expr) := do
  let key ← expr .lowest
  let _ ← expect .colon
  let value ← expr .lowest
  if (← peekKind) ≠ .rBrace then discard (expect .comma)
  pure (key, value)

/-! ## Operands -/

/-- An integer literal, whose value has to fit in 64 bits. -/
def integer : Rule Expr := do
  let token ← peek
  match (Text.readInt? token.literal.toList).bind fit? with
  | some value =>
    let _ ← advance
    pure (.integer token value)
  | none => fail .invalidInteger

/-- An expression in parentheses, which leave no node behind. -/
def grouped : Rule Expr := do
  let _ ← expect .lParen
  let inner ← expr .lowest
  let _ ← expect .rParen
  pure inner

/-- `if`, a condition in parentheses and one or two blocks. -/
def conditional : Rule Expr := do
  let token ← expect .kwIf
  let condition ← grouped expr
  let consequence ← block expr
  if (← peekKind) = .kwElse then
    let _ ← advance
    let alternative ← block expr
    pure (.conditional token condition consequence (some alternative))
  else
    pure (.conditional token condition consequence none)

/-- `fn`, parameters and a body. -/
def functionLiteral : Rule Expr := do
  let token ← expect .kwFn
  let names ← parameters
  let body ← block expr
  pure (.function ⟨token, names, body⟩)

/-- Elements in brackets. -/
def arrayLiteral : Rule Expr := do
  let token ← expect .lBracket
  let elements ← expressions expr .rBracket
  pure (.array token elements)

/-- Pairs in braces, a comma after the last of them allowed. -/
def hashLiteral : Rule Expr := do
  let token ← expect .lBrace
  let pairs ← whileNext (· ≠ .rBrace) (pair expr)
  let _ ← expect .rBrace
  pure (.hash token pairs)

/-- An operator before its operand. -/
def unary : Rule Expr := do
  let token ← peek
  match UnaryOp.ofKind? token.kind with
  | some op =>
    let _ ← advance
    let right ← expr .unary
    pure (.unary token op right)
  | none => fail .noPrefixRule

/-- What may stand first in an expression. -/
def operand : Rule Expr := do
  let token ← peek
  match token.kind with
  | .ident =>
    let _ ← advance
    pure (.identifier (.ofToken token))
  | .int => integer
  | .string =>
    let _ ← advance
    pure (.string token token.literal)
  | .kwTrue =>
    let _ ← advance
    pure (.boolean token true)
  | .kwFalse =>
    let _ ← advance
    pure (.boolean token false)
  | .lParen => grouped expr
  | .kwIf => conditional expr
  | .kwFn => functionLiteral expr
  | .lBracket => arrayLiteral expr
  | .lBrace => hashLiteral expr
  | _ => unary expr

/-! ## Operators after an operand -/

/-- A call, an element access or a binary operator with its right operand. -/
def operatorAfter (left : Expr) : Rule Expr := do
  let token ← peek
  match token.kind with
  | .lParen =>
    let _ ← advance
    let arguments ← expressions expr .rParen
    pure (.call token left arguments)
  | .lBracket =>
    let _ ← advance
    let index ← expr .lowest
    let _ ← expect .rBracket
    pure (.index token left index)
  | kind =>
    match BinaryOp.ofKind? kind with
    | some op =>
      let _ ← advance
      let right ← expr (.ofKind kind)
      pure (.binary token left op right)
    | none => fail .noPrefixRule

mutual

/-- An expression whose operators bind tighter than `above`, with so many levels left to open. -/
def expression : Nat → Precedence → Rule Expr
  | 0, _ => fail (.nestedTooDeeply maxNesting)
  | levels + 1, above => do
    let left ← operand (expression levels)
    operators levels above left

/-- The operators after `left` that bind tighter than `above`. -/
def operators : Nat → Precedence → Expr → Rule Expr
  | 0, above, left => do
    if above < .ofKind (← peekKind) then fail (.nestedTooDeeply maxNesting) else pure left
  | levels + 1, above, left => do
    if above < .ofKind (← peekKind) then
      let whole ← operatorAfter (expression levels) left
      operators levels above whole
    else
      pure left

end

/-- A single expression, a semicolon allowed after it, up to the end of the input. -/
def wholeExpression : Rule Expr := do
  let e ← expression maxNesting .lowest
  optionalSemicolon
  let _ ← expect .eof
  pure e

end Grammar

end Ember
