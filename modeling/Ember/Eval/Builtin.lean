import Ember.Eval.Machine
import Ember.Value.Printer

/-!
# Builtin functions

`len` counts the bytes of a string or the elements of an array. `first`, `last` and `rest` take an
array apart, and `push` makes a longer one; none of them changes the array it is given, and an empty
one has `null` for each of its parts. `puts` prints its arguments, a line each.
-/

namespace Ember.Builtin

/-- The one argument of a builtin. -/
def single : List Value → Eval Value
  | [v] => pure v
  | args => throw (.error (.builtinArity args.length 1))

/-- The elements of an argument that has to be an array. -/
def elementsOf (b : Builtin) : Value → Eval (List Value)
  | .array _ elements => pure elements
  | v => throw (.error (.notArray b v.type))

/-- Calls a builtin. -/
def run (b : Builtin) (args : List Value) : Eval Value :=
  match b with
  | len => do
    match ← single args with
    | .string s => pure (.integer (ofLength s.utf8ByteSize))
    | .array _ elements => pure (.integer (ofLength elements.length))
    | v => throw (.error (.badArgument len v.type))
  | first => do
    return (← elementsOf first (← single args)).head?.getD .null
  | last => do
    return (← elementsOf last (← single args)).getLast?.getD .null
  | rest => do
    match ← elementsOf rest (← single args) with
    | [] => pure .null
    | _ :: elements => Eval.allocate (.array · elements)
  | push =>
    match args with
    | [v, new] => do
      let elements ← elementsOf push v
      Eval.allocate (.array · (elements ++ [new]))
    | _ => throw (.error (.builtinArity args.length 2))
  | puts => do
    args.forM fun v => Eval.println v.render
    pure .null

end Ember.Builtin
