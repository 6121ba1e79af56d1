import Ember.Tree.Program

/-!
# Transforming a tree

`Node.transform` hands the parts of a node to a function that may keep a state of its own. It goes
one level deep: the statements of a program and the expression of an expression statement are handed
over, their operands, arguments and bodies are not.

## What comes back

For a statement the function may return a statement or an expression; an expression becomes an
expression statement again. Nothing shaped like a program can stand among statements, so such an
answer leaves a placeholder at the token of the statement that was handed over.
-/

namespace Ember

/-- The statement that an answer makes where a statement with the token `token` stood. -/
def Node.toStmt (token : Token) : Node → Stmt
  | .statement s => s
  | .expression e => .ofExpr e
  | .program _ | .missing => .missing token

variable {m : Type → Type} [Monad m]

/-- Hands a statement over: an expression statement as its expression, any other as it is. -/
def Stmt.transform (f : Node → m Node) : Stmt → m Node
  | .expression _ e => f (.expression e)
  | s => f (.statement s)

/-- Transforms a node one level deep. -/
def Node.transform (f : Node → m Node) : Node → m Node
  | .program p => do
    let statements ← p.statements.mapM fun s => do
      return (← s.transform f).toStmt s.token
    return .program ⟨statements, p.diagnostics⟩
  | .statement s => s.transform f
  | node => f node

end Ember
