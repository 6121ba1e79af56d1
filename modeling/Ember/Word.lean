/-!
# Integers of 64 bits

The numbers of the language are signed and 64 bits wide. Arithmetic is done on unbounded integers
and the result kept only if it fits, so that nothing ever wraps around.
-/

namespace Ember

/-- The smallest number that fits. -/
def smallest : Int := -9223372036854775808

/-- The largest number that fits. -/
def largest : Int := 9223372036854775807

/-- The 64-bit integer with a given value, if there is one. -/
def fit? (n : Int) : Option Int64 :=
  if smallest ≤ n ∧ n ≤ largest then some (Int64.ofInt n) else none

theorem smallest_le_toInt (w : Int64) : smallest ≤ w.toInt := w.le_toInt

theorem toInt_le_largest (w : Int64) : w.toInt ≤ largest := Int.le_of_lt_add_one w.toInt_lt

/-- An integer fits exactly when it is the value of a 64-bit integer. -/
theorem fit?_eq_some_iff {n : Int} {w : Int64} : fit? n = some w ↔ w.toInt = n := by
  unfold fit?
  constructor
  · split
    · next h =>
      intro heq
      cases heq
      exact Int64.toInt_ofInt_of_le h.1 (Int.lt_add_one_of_le h.2)
    · exact nofun
  · rintro rfl
    rw [if_pos ⟨smallest_le_toInt w, toInt_le_largest w⟩, Int64.ofInt_toInt]

@[simp] theorem fit?_toInt (w : Int64) : fit? w.toInt = some w := fit?_eq_some_iff.mpr rfl

theorem fit?_eq_none_iff {n : Int} : fit? n = none ↔ ¬(smallest ≤ n ∧ n ≤ largest) := by
  unfold fit?
  split
  · next h => exact ⟨nofun, fun hn => absurd h hn⟩
  · next h => exact ⟨fun _ => h, fun _ => rfl⟩

/-- The sum, if it fits. -/
def addExact? (a b : Int64) : Option Int64 := fit? (a.toInt + b.toInt)

/-- The difference, if it fits. -/
def subExact? (a b : Int64) : Option Int64 := fit? (a.toInt - b.toInt)

/-- The product, if it fits. -/
def mulExact? (a b : Int64) : Option Int64 := fit? (a.toInt * b.toInt)

/-- The quotient rounded toward zero, if it fits. -/
def divExact? (a b : Int64) : Option Int64 := fit? (a.toInt.tdiv b.toInt)

/-- The negation, if it fits. -/
def negExact? (a : Int64) : Option Int64 := fit? (-a.toInt)

/-- The 64-bit integer closest to a natural number. -/
def ofLength (n : Nat) : Int64 := (fit? n).getD Int64.maxValue

end Ember
