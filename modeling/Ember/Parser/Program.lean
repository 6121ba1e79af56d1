import Ember.Parser.Grammar
import Ember.Parser.Recovery
import Ember.Token.Lexer
import Ember.Tree.Program

/-!
# From tokens to programs

Parsing always gives a program. A statement that fails is reported once, leaves a placeholder at the
token it failed on, and parsing goes on with the next statement.
-/

namespace Ember

/--
Parses at most `n` statements. Every statement takes at least one token, so the number of tokens is
enough for all of them.
-/
def readStatements : Nat → Input → List Stmt × List Diagnostic
  | 0, _ => ([], [])
  | n + 1, input =>
    if input.pending.isEmpty then ([], [])
    else
      match Grammar.statement (Grammar.expression maxNesting) input with
      | .ok s rest =>
        let (statements, diagnostics) := readStatements n rest
        (s :: statements, diagnostics)
      | .error d stopped =>
        let (statements, diagnostics) := readStatements n (Recovery.resume input stopped)
        (.missing d.found :: statements, d :: diagnostics)

/-- Parses a list of tokens. -/
def Program.ofTokens (tokens : TokenList) : Program :=
  let input := Input.ofList tokens
  let (statements, diagnostics) := readStatements input.pending.length input
  ⟨statements, diagnostics⟩

/-- Parses a source text. -/
def Program.ofSource (source : String) : Program := .ofTokens (.ofSource source)

/-- Parses a list of tokens as one expression, or leaves a placeholder where that failed. -/
def Expr.ofTokens (tokens : TokenList) : Expr × List Diagnostic :=
  match Grammar.wholeExpression (Input.ofList tokens) with
  | .ok e _ => (e, [])
  | .error d _ => (.missing d.found, [d])

/-- Parses a source text as one expression. -/
def Expr.ofSource (source : String) : Expr × List Diagnostic := Expr.ofTokens (.ofSource source)

end Ember
