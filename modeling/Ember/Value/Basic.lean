import Ember.OrderedMap
import Ember.Tree.Basic
import Ember.Word

/-!
# Values

What evaluation produces. Besides the data of the language there are two signals, the `return` that
is on its way out of a body and the runtime error; they show at the boundary of the interpreter and
are never operands.

## Identity

The language compares arrays, hashes and functions by identity. Each of them carries the identity
that it was given when it was made; passing a value on keeps it, making a new one draws a new one.
-/

namespace Ember

/-- What tells one array, hash or function from another with the same contents. -/
structure Identity where
  serial : Nat
deriving DecidableEq

/-- The place of a scope in the heap. -/
structure ScopeId where
  index : Nat
deriving DecidableEq

/-- A function that comes with the language. -/
inductive Builtin where
  | len
  | first
  | last
  | rest
  | push
  | puts
deriving DecidableEq

namespace Builtin

/-- The name under which a builtin is found. -/
def name : Builtin → String
  | len => "len"
  | first => "first"
  | last => "last"
  | rest => "rest"
  | push => "push"
  | puts => "puts"

/-- Every builtin. -/
def all : List Builtin := [len, first, last, rest, push, puts]

/-- The builtin with a given name. -/
def ofName? (text : String) : Option Builtin := all.find? (·.name == text)

theorem ofName?_name (b : Builtin) : ofName? b.name = some b := by
  cases b <;> decide

end Builtin

/-- The values that can be keys of a hash. -/
inductive HashKey where
  | integer (n : Int64)
  | boolean (b : Bool)
  | string (s : String)
deriving DecidableEq

/-- A value. -/
inductive Value where
  | integer (n : Int64)
  | boolean (b : Bool)
  | string (s : String)
  | array (id : Identity) (elements : List Value)
  /-- A hash: under each key the value that the key was made from, and the value stored. -/
  | hash (id : Identity) (entries : List (HashKey × Value × Value))
  /-- A function literal and the scope that it was evaluated in. -/
  | function (id : Identity) (literal : FunctionLiteral) (scope : ScopeId)
  | builtin (b : Builtin)
  | null
  /-- The value of a `return` that has not reached the end of a body. -/
  | returnSignal (value : Value)
  /-- A runtime error. -/
  | error (message : String)

/-- The entries of a hash value. -/
abbrev HashEntries := OrderedMap HashKey (Value × Value)

/-- The type of a value, as far as messages tell it. -/
inductive ValueType where
  | integer
  | boolean
  | string
  | array
  | hash
  | function
  | builtin
  | null
  | returnSignal
  | error
deriving DecidableEq

/-- How a type is called in messages. -/
def ValueType.name : ValueType → String
  | integer => "INTEGER"
  | boolean => "BOOLEAN"
  | string => "STRING"
  | array => "ARRAY"
  | hash => "HASH"
  | function => "FUNCTION"
  | builtin => "BUILTIN"
  | null => "NULL"
  | returnSignal => "RETURN_VALUE"
  | error => "ERROR"

namespace Value

/-- The type of a value. -/
def type : Value → ValueType
  | integer _ => .integer
  | boolean _ => .boolean
  | string _ => .string
  | array _ _ => .array
  | hash _ _ => .hash
  | function _ _ _ => .function
  | builtin _ => .builtin
  | null => .null
  | returnSignal _ => .returnSignal
  | error _ => .error

/-- Whether a condition with this value holds: all values but `false` and `null` count as true. -/
def isTruthy : Value → Bool
  | boolean b => b
  | null => false
  | _ => true

/-- Whether the value is a signal, which no operator accepts. -/
def isSignal : Value → Bool
  | returnSignal _ | error _ => true
  | _ => false

/-- The key that a value makes in a hash, if it can be one. -/
def hashKey? : Value → Option HashKey
  | integer n => some (.integer n)
  | boolean b => some (.boolean b)
  | string s => some (.string s)
  | _ => none

end Value

end Ember
