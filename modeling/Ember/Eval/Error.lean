import Ember.Text.Decimal
import Ember.Value.Basic

/-!
# Errors and faults

A runtime error is the program's own: it becomes a value that holds a message. A fault is not: the
program holds a placeholder where something could not be parsed, or calls nest beyond the limit.
-/

namespace Ember

/-- What a program can do wrong when it runs. -/
inductive RuntimeError where
  | typeMismatch (left : ValueType) (op : BinaryOp) (right : ValueType)
  | unknownBinary (left : ValueType) (op : BinaryOp) (right : ValueType)
  | unknownUnary (op : UnaryOp) (operand : ValueType)
  | integerOverflow (left : Int64) (op : BinaryOp) (right : Int64)
  | negationOverflow (operand : Int64)
  | divisionByZero
  | unbound (name : String)
  | notCallable (type : ValueType)
  | functionArity (wanted given : Nat)
  | badHashKey (type : ValueType)
  | notIndexable (type : ValueType)
  | builtinArity (given wanted : Nat)
  | notArray (builtin : Builtin) (type : ValueType)
  | badArgument (builtin : Builtin) (type : ValueType)
deriving DecidableEq

/-- The message of a runtime error. -/
def RuntimeError.message : RuntimeError → String
  | typeMismatch left op right => s!"type mismatch: {left.name} {op.symbol} {right.name}"
  | unknownBinary left op right => s!"unknown operator: {left.name} {op.symbol} {right.name}"
  | unknownUnary op operand => s!"unknown operator: {op.symbol}{operand.name}"
  | integerOverflow left op right =>
    "integer overflow: " ++ Text.writeInt left.toInt ++ " " ++ op.symbol ++ " " ++
      Text.writeInt right.toInt
  | negationOverflow operand => "integer overflow: -" ++ Text.writeInt operand.toInt
  | divisionByZero => "division by zero"
  | unbound name => "identifier not found: " ++ name
  | notCallable type => "not a function: " ++ type.name
  | functionArity wanted given => s!"wrong number of arguments: want={wanted}, got={given}"
  | badHashKey type => "unusable as hash key: " ++ type.name
  | notIndexable type => "index operator not supported: " ++ type.name
  | builtinArity given wanted => s!"wrong number of arguments. got={given}, want={wanted}"
  | notArray builtin type => s!"argument to `{builtin.name}` must be ARRAY, got {type.name}"
  | badArgument builtin type => s!"argument to `{builtin.name}` not supported, got {type.name}"

/-- Why evaluation could not be carried out. -/
inductive Fault where
  /-- A placeholder was evaluated. -/
  | placeholder (kind : Placeholder)
  /-- A call would have made calls nest deeper than the limit. -/
  | callDepth (limit : Nat)
deriving DecidableEq

/-- The message of a fault. -/
def Fault.message : Fault → String
  | placeholder kind => s!"cannot evaluate a {kind.name} node"
  | callDepth limit => s!"maximum call depth of {limit} exceeded"

end Ember
