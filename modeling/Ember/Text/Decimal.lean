/-!
# Decimal numbers

Reading and writing whole numbers in base ten. A numeral is one or more ASCII digits, leading zeros
allowed; a sign is at most one character in front of it.
-/

namespace Ember.Text

/-- The value of a digit. -/
def digitValue (c : Char) : Nat := c.toNat - '0'.toNat

/-- The number that a string of digits denotes, read after a number `n`. -/
def valueFrom (n : Nat) (cs : List Char) : Nat := cs.foldl (fun n c => 10 * n + digitValue c) n

/-- Reads one or more digits and nothing else. -/
def readDigits? (cs : List Char) : Option Nat :=
  if cs ≠ [] ∧ cs.all Char.isDigit then some (valueFrom 0 cs) else none

/-- Reads digits after at most one plus sign. -/
def readNat? : List Char → Option Nat
  | '+' :: cs => readDigits? cs
  | cs => readDigits? cs

/-- Reads digits after at most one plus or minus sign. -/
def readInt? : List Char → Option Int
  | '-' :: cs => (readDigits? cs).map fun n => -(n : Int)
  | cs => (readNat? cs).map Int.ofNat

example : readInt? "+007".toList = some 7 ∧ readInt? "-7".toList = some (-7) := by decide +kernel

/-- A sign needs a digit after it, and there is only one sign. -/
example : readInt? "-".toList = none ∧ readInt? "+-1".toList = none ∧ readInt? [] = none := by
  decide +kernel

/-- Writes a whole number with as few digits as possible, a minus sign before a negative one. -/
def writeInt (n : Int) : String :=
  if n < 0 then "-" ++ String.ofList (Nat.toDigits 10 n.natAbs)
  else String.ofList (Nat.toDigits 10 n.natAbs)

end Ember.Text
