import Ember.Text.Quoted
import Ember.Tree.Printer
import Ember.Value.Basic

/-!
# The texts of a value

`Value.render` is what programs print: a string is itself, without quotes. `Value.describe` is for
looking into a value: it names the kind of everything and puts strings in quotes.
-/

namespace Ember.Value

mutual

/-- The text of a value in the output of a program. -/
def render : Value → String
  | integer n => Text.writeInt n.toInt
  | boolean b => if b then "true" else "false"
  | string s => s
  | array _ elements => "[" ++ renderElements elements ++ "]"
  | hash _ entries => "\x7b" ++ renderEntries entries ++ "\x7d"
  | function _ literal _ => literal.render
  | builtin _ => "builtin function"
  | null => "null"
  | returnSignal value => render value
  | error message => "ERROR: " ++ message

/-- The texts of the elements of an array, a comma between neighbours. -/
def renderElements : List Value → String
  | [] => ""
  | [v] => render v
  | v :: vs => render v ++ ", " ++ renderElements vs

/-- The texts of the entries of a hash, a comma between neighbours. -/
def renderEntries : List (HashKey × Value × Value) → String
  | [] => ""
  | [(_, k, v)] => render k ++ ": " ++ render v
  | (_, k, v) :: es => render k ++ ": " ++ render v ++ ", " ++ renderEntries es

end

mutual

/-- The text of a value that names the kind of each part. -/
def describe : Value → String
  | integer n => "Integer(" ++ Text.writeInt n.toInt ++ ")"
  | boolean b => "Boolean(" ++ (if b then "true" else "false") ++ ")"
  | string s => "String(" ++ Text.quote s ++ ")"
  | array _ elements => "Array([" ++ describeElements elements ++ "])"
  | hash _ entries => "Hash([" ++ describeEntries entries ++ "])"
  | function _ literal _ => "Function(" ++ literal.render ++ ")"
  | builtin b => "Builtin(" ++ b.name ++ ")"
  | null => "Null"
  | returnSignal value => "ReturnSignal(" ++ describe value ++ ")"
  | error message => "Error(" ++ Text.quote message ++ ")"

/-- The descriptions of the elements of an array, a comma between neighbours. -/
def describeElements : List Value → String
  | [] => ""
  | [v] => describe v
  | v :: vs => describe v ++ ", " ++ describeElements vs

/-- The descriptions of the entries of a hash, each in parentheses. -/
def describeEntries : List (HashKey × Value × Value) → String
  | [] => ""
  | [(_, k, v)] => "(" ++ describe k ++ ", " ++ describe v ++ ")"
  | (_, k, v) :: es => "(" ++ describe k ++ ", " ++ describe v ++ "), " ++ describeEntries es

end

end Ember.Value
