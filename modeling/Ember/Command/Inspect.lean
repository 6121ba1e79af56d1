import Ember.Command.Run

/-!
# Looking into a source text

The tokens of a text, its statements in canonical form, and what a diagnostic code means.
-/

namespace Ember

/-- Lists the tokens of a source text. -/
def Command.listTokens (source : String) : Report :=
  let tokens := TokenList.ofSource source
  let header := Transcript.line s!"Tokens ({tokens.length}):"
  ⟨header ++ tokens.tokens.flatMap fun t => Transcript.line s!"  {t.describe}", .ok .success⟩

/-- Lists the statements of a source text, and its diagnostics if there are any. -/
def Command.listStatements (source : String) : Report :=
  let p := Program.ofSource source
  let header := Transcript.line s!"Statements: {p.statements.length}"
  let listed := header ++ p.statements.flatMap fun s => Transcript.line s!"  {s.render}"
  if p.hasDiagnostics then
    let errors := Transcript.messageLine s!"Errors: {p.diagnostics.length}"
    ⟨listed ++ errors ++ .ofDiagnostics p.diagnostics, .ok .failure⟩
  else ⟨listed, .ok .success⟩

/-- Explains a diagnostic code. -/
def Command.explain (code : String) : Report :=
  match DiagnosticCode.ofText? code with
  | some c => ⟨Transcript.line s!"{c.text}: {c.description}", .ok .success⟩
  | none => .ofError (.unknownCode code)

end Ember
