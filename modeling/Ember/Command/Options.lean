import Ember.Command.Report
import Ember.Eval.CallStack
import Ember.Text.Blank
import Ember.Text.Decimal

/-!
# Options

The limit on nested calls can be set by an environment variable and by a flag. Flags are read from
left to right: the last one counts, and the first argument that cannot be used ends the reading.
Arguments that do not start with a dash are kept in their order.
-/

namespace Ember

/-- What a run of a program is told. -/
structure Options where
  /-- How many calls may nest; none means that there is no limit. -/
  maxDepth : Option Nat := some CallStack.defaultLimit
deriving DecidableEq

namespace Options

/-- The environment variable that sets the limit. -/
def depthVariable : String := "EMBER_MAX_DEPTH"

/-- The flag that sets the limit, up to its value. -/
def depthFlag : List Char := "--max-depth=".toList

/-- The numbers that a limit can be are below this one. -/
def depthBound : Nat := 0x10000000000000000

/-- Reads a limit: a number below the bound, blank characters around it allowed; zero is none. -/
def readDepth (value : String) : Except CommandError (Option Nat) :=
  match Text.readNat? (Text.trim value.toList) with
  | some n =>
    if depthBound ≤ n then .error (.badDepth value) else .ok (if n = 0 then none else some n)
  | none => .error (.badDepth value)

/-- The options that the environment variable leaves, if it is set. -/
def ofEnvironment : Option String → Except CommandError Options
  | none => .ok {}
  | some value => do
    return { maxDepth := ← readDepth value }

/-- Applies arguments to options and keeps those that are no flags. -/
def applyArguments : Options → List String → Except CommandError (Options × List String)
  | options, [] => .ok (options, [])
  | options, arg :: args =>
    match depthFlag.isPrefixOf? arg.toList with
    | some value => do
      let maxDepth ← readDepth (String.ofList value)
      applyArguments { options with maxDepth } args
    | none =>
      if arg.toList.head? = some '-' then .error (.unknownOption arg)
      else do
        let (options, rest) ← applyArguments options args
        return (options, arg :: rest)

end Options

end Ember
