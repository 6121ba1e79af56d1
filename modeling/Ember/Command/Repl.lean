import Ember.Command.Run

/-!
# The prompt

Each line of the input is a program of its own, evaluated in a global scope that all lines share.
What goes wrong with a line is reported and the next line is read. A value is echoed unless it is
`null`. Lines with nothing but blank characters are passed over.

The input is bytes: a line that is not UTF-8 ends the session.
-/

namespace Ember.Repl

/-- What is shown before each line. -/
def prompt : Transcript := [(.output, ">> ")]

/-- A line without a carriage return at its end. -/
def chomp (line : List UInt8) : List UInt8 :=
  if line.getLast? = some 13 then line.dropLast else line

/--
The lines of an input. A line ends with a line feed, before which one carriage return is dropped;
what follows the last line feed is a line too, unless it is empty.
-/
def lines (input : List UInt8) : List (List UInt8) :=
  match input.splitOn 10 with
  | [] => []
  | pieces =>
    pieces.dropLast.map chomp ++ (pieces.getLast?.filter fun last => !last.isEmpty).toList

/-- Reads one line. -/
def step (s : Session) (line : String) : Transcript × Session :=
  if Text.trim line.toList = [] then ([], s)
  else
    let p := Program.ofSource line
    if p.hasDiagnostics then (.ofDiagnostics p.diagnostics, s)
    else
      let (outcome, printed, s) := s.eval p
      (printed ++ .ofOutcome false outcome, s)

/-- Reads lines up to the end or to the first that is not text. -/
def loop (s : Session) : List (List UInt8) → Report
  | [] => ⟨Transcript.line "", .ok .success⟩
  | bytes :: rest =>
    match String.fromUTF8? bytes.toByteArray with
    | none => .ofError (.stream "stream did not contain valid UTF-8")
    | some line =>
      let (written, s) := step s line
      (loop s rest).after (written ++ prompt)

/-- Reads an input from a fresh session. -/
def run (options : Options) (input : List UInt8) : Report :=
  (loop (Session.start options) (lines input)).after prompt

end Ember.Repl
