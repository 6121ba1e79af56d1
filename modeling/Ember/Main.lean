import Ember.Command.Dispatch

/-!
# The program

Reads the arguments, the environment and what the plan asks for, and writes the report. Lines of the
prompt are answered as they come.
-/

namespace Ember

/-- Writes a transcript to the streams of the process. -/
def writeTranscript (t : Transcript) : IO Unit := do
  let out ← IO.getStdout
  let err ← IO.getStderr
  for (channel, text) in t do
    match channel with
    | .output | .printed => out.putStr text
    | .messages => err.putStr text
  out.flush

/-- Writes a report and gives the exit code. -/
def writeReport (r : Report) : IO UInt32 := do
  writeTranscript r.fullTranscript
  return UInt32.ofNat r.exitCode

/-- What is found under a path. -/
def readContents (path : String) : IO FileContents := do
  try
    return .bytes (← IO.FS.readBinFile path)
  catch
    | .noFileOrDirectory .. => return .absent
    | .inappropriateType .. => return .directory
    | e => return .unreadable (toString e)

/-- Bytes up to and with the next line feed. -/
partial def readLine (stream : IO.FS.Stream) (line : List UInt8) : IO (List UInt8) := do
  let chunk ← stream.read 1
  match chunk.toList with
  | [] => return line.reverse
  | b :: _ => if b = 10 then return (b :: line).reverse else readLine stream (b :: line)

/-- Answers the lines of the standard input one after another. -/
partial def answerLines (s : Session) : IO UInt32 := do
  let line ← readLine (← IO.getStdin) []
  if line.isEmpty then writeReport (Repl.loop s [])
  else
    match Repl.lines line with
    | bytes :: _ =>
      match String.fromUTF8? bytes.toByteArray with
      | none => writeReport (Repl.loop s [bytes])
      | some text =>
        let (written, s) := Repl.step s text
        writeTranscript (written ++ Repl.prompt)
        answerLines s
    | [] => writeReport (Repl.loop s [])

end Ember

open Ember

/-- The command line. -/
def main (args : List String) : IO UInt32 := do
  match Plan.ofArguments (← IO.getEnv Options.depthVariable) args with
  | .finished r => writeReport r
  | .readFile path run =>
    let contents ← readContents path
    writeReport (Plan.carryOut (fun _ => contents) [] (.readFile path run))
  | .readLines options => do
    writeTranscript (banner ++ Repl.prompt)
    answerLines (Session.start options)
