import Ember.Command.Inspect
import Ember.Command.Repl

/-!
# The command line

The arguments alone decide what is to be done, up to the contents of a file or of the standard
input. That is a `Plan`; carrying it out needs only those contents.
-/

namespace Ember

/-- The name and version that the program goes by. -/
def banner : Transcript := Transcript.line "Ember 0.1.0"

/-- The text of `help`. -/
def usage : Transcript := [
  "Ember interpreter",
  "",
  "Usage: ember <command> [options]",
  "",
  "Commands:",
  "  <file.em>            Run a program (same as `run`)",
  "  run <file.em>        Run a program and print its final value",
  "  repl                 Start the interactive prompt (default)",
  "  lex <file.em>        Tokenize and display tokens",
  "  parse <file.em>      Parse and display statements",
  "  explain <code>       Explain a diagnostic code (e.g., E1001)",
  "  help                 Show this help message",
  "  version              Show version information",
  "",
  "Run/REPL options:",
  "  --max-depth=<n>      Maximum call depth (0 = unlimited)",
  "",
  "Environment:",
  "  EMBER_MAX_DEPTH      Default for --max-depth",
  "  RUST_LOG             Enable tracing output on stderr",
  "",
  "Exit codes: 0 success, 1 diagnostics or runtime error, 2 internal fault"].flatMap Transcript.line

/-! ## Files -/

/-- The last part of a path, unless it leads upwards. -/
def fileName? (path : List Char) : Option (List Char) :=
  match ((path.splitOn '/').filter fun part => part ≠ [] ∧ part ≠ ['.']).getLast? with
  | some name => if name = ['.', '.'] then none else some name
  | none => none

/-- What follows the last dot of a name, unless nothing stands before that dot. -/
def extension? (name : List Char) : Option (List Char) :=
  let ending := name.reverse.takeWhile (· ≠ '.')
  if ending.length + 1 < name.length then some ending.reverse else none

/-- Whether an argument names a source file: its extension is `em`, in small or capital letters. -/
def isSourceFile (arg : String) : Bool :=
  ((fileName? arg.toList).bind extension?).any fun e => e.map Char.toLower == ['e', 'm']

/-- What is found under a path. -/
inductive FileContents where
  | absent
  | unreadable (cause : String)
  | bytes (contents : ByteArray)

/-- A directory stands where a file is expected. -/
def FileContents.directory : FileContents := .unreadable "Is a directory (os error 21)"

/-- The source text in a file. -/
def FileContents.source (path : String) : FileContents → Except CommandError String
  | absent => .error (.notFound path)
  | unreadable cause => .error (.unreadable path cause)
  | bytes contents =>
    match String.fromUTF8? contents with
    | some text => .ok text
    | none => .error (.notText path)

/-! ## Plans -/

/-- What the arguments ask for. -/
inductive Plan where
  /-- Nothing has to be read. -/
  | finished (r : Report)
  /-- A file has to be read and its text handed on. -/
  | readFile (path : String) (run : String → Report)
  /-- Lines have to be read from the standard input. -/
  | readLines (options : Options)

namespace Plan

/-- A command that was not used as it should be. -/
def misuse (lines : List String) : Plan :=
  .finished ⟨lines.flatMap Transcript.messageLine, .ok .failure⟩

/-- The plan that options lead to, or the report of why there are none. -/
def ofOptions {α : Type} (options : Except CommandError α) (next : α → Plan) : Plan :=
  match options with
  | .ok a => next a
  | .error e => .finished (.ofError e)

/-- Options from the environment and from arguments, and the arguments that are left. -/
def options (limit : Option String) (args : List String) :
    Except CommandError (Options × List String) := do
  (← Options.ofEnvironment limit).applyArguments args

/-- Runs the one file that the arguments name. -/
def runFile (limit : Option String) (args : List String) : Plan :=
  ofOptions (options limit args) fun (options, files) =>
    match files with
    | [path] => .readFile path (Command.run options)
    | _ =>
      misuse ["error: expected exactly one file path",
        "Usage: ember run <file.em> [--max-depth=<n>]"]

/-- Starts the prompt, which takes no arguments but flags. -/
def startRepl (limit : Option String) (args : List String) : Plan :=
  ofOptions (options limit args) fun (options, rest) =>
    match rest with
    | [] => .readLines options
    | extra :: _ =>
      misuse [s!"error: unexpected argument '{extra}'", "Usage: ember repl [--max-depth=<n>]"]

/-- The plan for the arguments after the name of the program. -/
def ofArguments (limit : Option String) : List String → Plan
  | [] => startRepl limit []
  | command :: args =>
    if command = "run" then runFile limit args
    else if command = "repl" then startRepl limit args
    else if command = "lex" then
      match args with
      | path :: _ => .readFile path Command.listTokens
      | [] => misuse ["Usage: ember lex <file.em>"]
    else if command = "parse" then
      match args with
      | path :: _ => .readFile path Command.listStatements
      | [] => misuse ["Usage: ember parse <file.em>"]
    else if command = "explain" ∨ command = "--explain" then
      match args with
      | code :: _ => .finished (Command.explain code)
      | [] => misuse ["Usage: ember explain <ERROR_CODE>", "Example: ember explain E1001"]
    else if command = "help" ∨ command = "--help" ∨ command = "-h" then
      .finished ⟨usage, .ok .success⟩
    else if command = "version" ∨ command = "--version" ∨ command = "-V" then
      .finished ⟨banner, .ok .success⟩
    else if Options.depthFlag.isPrefixOf command.toList ∨ isSourceFile command then
      runFile limit (command :: args)
    else
      .finished ⟨Transcript.messageLine s!"Unknown command: {command}" ++
        Transcript.messageLine "" ++ usage, .ok .failure⟩

/-- Carries a plan out, given what is found under each path and the standard input. -/
def carryOut (files : String → FileContents) (input : List UInt8) : Plan → Report
  | .finished r => r
  | .readFile path run =>
    match (files path).source path with
    | .ok source => run source
    | .error e => .ofError e
  | .readLines options => (Repl.run options input).after banner

end Plan

end Ember
