import Ember.Diagnostic
import Ember.Tree.Printer

/-!
# Programs and nodes

A program is the statements of a source text together with the diagnostics of parsing it. A `Node`
is anything that can be evaluated or transformed: a program, a statement or an expression, or the
placeholder for a program.
-/

namespace Ember

/-- The statements of a source text and what the parser reported about it. -/
structure Program where
  statements : List Stmt
  diagnostics : List Diagnostic

namespace Program

/-- Whether the parser reported anything. -/
def hasDiagnostics (p : Program) : Bool := !p.diagnostics.isEmpty

/-- The text of a program, one statement a line. -/
def render (p : Program) : String := "\n".intercalate (p.statements.map Stmt.render)

end Program

/-- Anything that can be evaluated or transformed. -/
inductive Node where
  | program (p : Program)
  | statement (s : Stmt)
  | expression (e : Expr)
  /-- No program was produced. -/
  | missing

/-- The text of a node. -/
def Node.render : Node → String
  | .program p => p.render
  | .statement s => s.render
  | .expression e => e.render
  | .missing => "<null program>"

end Ember
