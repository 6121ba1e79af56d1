import Ember.Command.Options
import Ember.Eval.Interpreter
import Ember.Parser.Program

/-!
# Running a program

A program with diagnostics is not evaluated. Otherwise its value is the output, a runtime error or a
fault is a message.
-/

namespace Ember

/-- Diagnostics among the messages, a line each. -/
def Transcript.ofDiagnostics (ds : List Diagnostic) : Transcript :=
  ds.flatMap fun d => messageLine d.render

/-- What is written about the end of an evaluation. -/
def Transcript.ofOutcome (showNull : Bool) : Outcome → Transcript
  | .value (.error message) => messageLine s!"error: {message}"
  | .value .null => if showNull then line Value.null.render else []
  | .value v => line v.render
  | .fault f => messageLine s!"internal error: {f.message}"
  | .exhausted => messageLine "internal error: calls nested without end"

/-- The status that the end of an evaluation makes. -/
def Outcome.status : Outcome → ExitStatus
  | .value (.error _) => .failure
  | .value _ => .success
  | .fault _ | .exhausted => .fault

/-- An interpreter and the global scope that it evaluates in. -/
structure Session where
  machine : Machine
  globals : ScopeId

namespace Session

/-- A session in which nothing was evaluated yet. -/
def start (options : Options) : Session :=
  let (globals, machine) := (Machine.start options.maxDepth .fresh).newScope none
  ⟨machine, globals⟩

/-- Evaluates a program and hands over what it printed. -/
def eval (s : Session) (p : Program) : Outcome × Transcript × Session :=
  let (outcome, machine) := s.machine.eval s.globals (.program p)
  let printed := machine.printer.text
  (outcome, if printed.isEmpty then [] else [(.printed, printed)],
    { s with machine := { machine with printer := machine.printer.clear } })

end Session

/-- Runs a source text in a session of its own. -/
def Command.run (options : Options) (source : String) : Report :=
  let p := Program.ofSource source
  if p.hasDiagnostics then ⟨.ofDiagnostics p.diagnostics, .ok .failure⟩
  else
    let (outcome, printed, _) := (Session.start options).eval p
    ⟨printed ++ .ofOutcome true outcome, .ok outcome.status⟩

end Ember
