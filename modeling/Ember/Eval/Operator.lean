import Ember.Eval.Error
import Ember.Value.Equality

/-!
# Operators on values

Integer arithmetic is exact: a result that does not fit in 64 bits is an error, and so is division
by zero. Equality is defined on all values but signals; addition also joins strings.
-/

namespace Ember

/-- A result of arithmetic, or the overflow error where it does not fit. -/
def orOverflow (a : Int64) (op : BinaryOp) (b : Int64) : Option Int64 → Except RuntimeError Value
  | some n => .ok (.integer n)
  | none => .error (.integerOverflow a op b)

/-- A binary operator on two integers. -/
def evalIntegers (a : Int64) (op : BinaryOp) (b : Int64) : Except RuntimeError Value :=
  match op with
  | .add => orOverflow a op b (addExact? a b)
  | .sub => orOverflow a op b (subExact? a b)
  | .mul => orOverflow a op b (mulExact? a b)
  | .div => if b = 0 then .error .divisionByZero else orOverflow a op b (divExact? a b)
  | .lt => .ok (.boolean (a < b))
  | .gt => .ok (.boolean (b < a))
  | .eq => .ok (.boolean (a == b))
  | .notEq => .ok (.boolean (a != b))

/-- A binary operator on two strings. -/
def evalStrings (a : String) (op : BinaryOp) (b : String) : Except RuntimeError Value :=
  match op with
  | .add => .ok (.string (a ++ b))
  | .eq => .ok (.boolean (a == b))
  | .notEq => .ok (.boolean (a != b))
  | _ => .error (.unknownBinary .string op .string)

/-- A binary operator on two values. -/
def evalBinary (left : Value) (op : BinaryOp) (right : Value) : Except RuntimeError Value :=
  if left.isSignal || right.isSignal then .error (.unknownBinary left.type op right.type)
  else
    match left, right with
    | .integer a, .integer b => evalIntegers a op b
    | .string a, .string b => evalStrings a op b
    | _, _ =>
      match op with
      | .eq => .ok (.boolean (left.equal right))
      | .notEq => .ok (.boolean (!left.equal right))
      | _ =>
        if left.type ≠ right.type then .error (.typeMismatch left.type op right.type)
        else .error (.unknownBinary left.type op right.type)

/-- A unary operator on a value. -/
def evalUnary (op : UnaryOp) (operand : Value) : Except RuntimeError Value :=
  if operand.isSignal then .error (.unknownUnary op operand.type)
  else
    match op, operand with
    | .not, v => .ok (.boolean (!v.isTruthy))
    | .neg, .integer n =>
      match negExact? n with
      | some m => .ok (.integer m)
      | none => .error (.negationOverflow n)
    | .neg, v => .error (.unknownUnary .neg v.type)

/-- An element access: past either end of an array, or under a new key, there is `null`. -/
def evalIndex (left : Value) (index : Value) : Except RuntimeError Value :=
  match left, index with
  | .array _ elements, .integer i =>
    .ok (if i < 0 then .null else (elements[i.toInt.toNat]?).getD .null)
  | .hash _ entries, key =>
    match key.hashKey? with
    | some k => .ok (((OrderedMap.get? entries k).map Prod.snd).getD .null)
    | none => .error (.badHashKey key.type)
  | v, _ => .error (.notIndexable v.type)

end Ember
