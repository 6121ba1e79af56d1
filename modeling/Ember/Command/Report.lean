/-!
# What a command reports

A command writes to two streams and the programs it runs print lines of their own. A transcript
keeps all of it in the order in which it was written, each piece with the channel it belongs to. A
report is a transcript and how the command ended.
-/

namespace Ember

/-- What can keep a command from doing its work. -/
inductive CommandError where
  | notFound (path : String)
  | notText (path : String)
  | unreadable (path : String) (cause : String)
  | badDepth (value : String)
  | unknownOption (option : String)
  | unknownCode (code : String)
  | stream (cause : String)
deriving DecidableEq

/-- The message of a command that could not do its work. -/
def CommandError.message : CommandError → String
  | notFound path => s!"cannot find file '{path}'"
  | notText path => s!"'{path}' contains invalid UTF-8 data"
  | unreadable path cause => s!"error reading '{path}': {cause}"
  | badDepth value => s!"invalid max depth '{value}': expected a non-negative integer"
  | unknownOption option => s!"unknown option '{option}'"
  | unknownCode code => s!"unknown error code '{code}'"
  | stream cause => s!"failed to write output: {cause}"

/-- How a command that did its work ended. -/
inductive ExitStatus where
  | success
  /-- There were diagnostics or a runtime error. -/
  | failure
  /-- Evaluation ended in a fault. -/
  | fault
deriving DecidableEq

/-- The exit code of the process. -/
def ExitStatus.code : ExitStatus → Nat
  | success => 0
  | failure => 1
  | fault => 2

/-- Where a piece of text was written. -/
inductive Channel where
  /-- The output of the command. -/
  | output
  /-- The lines that a program printed. -/
  | printed
  /-- Messages. -/
  | messages
deriving DecidableEq

/-- Pieces of text in the order in which they were written. -/
abbrev Transcript := List (Channel × String)

namespace Transcript

/-- What was written to some of the channels. -/
def text (t : Transcript) (channels : List Channel) : String :=
  String.join ((t.filter fun piece => channels.contains piece.1).map Prod.snd)

/-- A line of output. -/
def line (text : String) : Transcript := [(.output, text ++ "\n")]

/-- A line among the messages. -/
def messageLine (text : String) : Transcript := [(.messages, text ++ "\n")]

end Transcript

/-- Everything that a command did. -/
structure Report where
  transcript : Transcript
  ending : Except CommandError ExitStatus

namespace Report

/-- The report of a command that stopped before it wrote anything. -/
def ofError (e : CommandError) : Report := ⟨[], .error e⟩

/-- A report with more text in front. -/
def after (before : Transcript) (r : Report) : Report := ⟨before ++ r.transcript, r.ending⟩

/-- What the process writes: a command that could not do its work says so last. -/
def fullTranscript (r : Report) : Transcript :=
  match r.ending with
  | .ok _ => r.transcript
  | .error e => r.transcript ++ Transcript.messageLine s!"error: {e.message}"

/-- The exit code of the process. -/
def exitCode (r : Report) : Nat :=
  match r.ending with
  | .ok status => status.code
  | .error _ => ExitStatus.failure.code

end Report

end Ember
