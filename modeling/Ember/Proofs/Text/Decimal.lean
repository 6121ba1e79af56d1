import Ember.Text.Decimal

/-!
# Numbers are read back as they were written

A number that is written is a run of digits, after a minus sign if it is negative
(`toList_writeInt`, `isDigit_of_mem_toDigits`), and reading it gives the number again
(`readInt?_writeInt`).
-/

namespace Ember.Text

/-! ## Digits -/

theorem valueFrom_append (n : Nat) (cs ds : List Char) :
    valueFrom n (cs ++ ds) = valueFrom (valueFrom n cs) ds := List.foldl_append

theorem digitValue_digitChar : ∀ d < 10, digitValue (Nat.digitChar d) = d := by decide

/-- The digits of a number denote it. -/
theorem valueFrom_toDigits (n : Nat) : valueFrom 0 (Nat.toDigits 10 n) = n := by
  induction n using Nat.strongRecOn with
  | ind n ih =>
    by_cases h : n < 10
    · rw [Nat.toDigits_of_lt_base h]
      show 10 * 0 + digitValue (Nat.digitChar n) = n
      rw [digitValue_digitChar n h, Nat.mul_zero, Nat.zero_add]
    · have hlast := digitValue_digitChar (n % 10) (Nat.mod_lt n (by decide))
      rw [Nat.toDigits_of_base_le (by decide) (Nat.le_of_not_lt h), valueFrom_append,
        ih (n / 10) (by omega)]
      show 10 * (n / 10) + digitValue (Nat.digitChar (n % 10)) = n
      rw [hlast]
      exact Nat.div_add_mod n 10

theorem isDigit_of_mem_toDigits {n : Nat} {c : Char} (h : c ∈ Nat.toDigits 10 n) :
    c.isDigit = true := Nat.isDigit_of_mem_toDigits (by decide) (by decide) h

theorem readDigits?_toDigits (n : Nat) : readDigits? (Nat.toDigits 10 n) = some n := by
  have hall : (Nat.toDigits 10 n).all Char.isDigit = true :=
    List.all_eq_true.mpr fun _ hc => isDigit_of_mem_toDigits hc
  unfold readDigits?
  rw [if_pos ⟨Nat.toDigits_ne_nil, hall⟩, valueFrom_toDigits]

/-! ## Signs -/

/-- A text that begins with a digit has no sign. -/
theorem readInt?_of_isDigit {c : Char} {cs : List Char} (h : c.isDigit = true) :
    readInt? (c :: cs) = (readDigits? (c :: cs)).map Int.ofNat := by
  have hminus : c ≠ '-' := by
    rintro rfl
    exact absurd h (by decide)
  have hplus : c ≠ '+' := by
    rintro rfl
    exact absurd h (by decide)
  unfold readInt?
  split
  · next heq => exact absurd (List.cons.inj heq).1 hminus
  unfold readNat?
  split
  · next heq => exact absurd (List.cons.inj heq).1 hplus
  · rfl

theorem toList_writeInt_of_nonneg {n : Int} (h : 0 ≤ n) :
    (writeInt n).toList = Nat.toDigits 10 n.natAbs := by
  unfold writeInt
  rw [if_neg (Int.not_lt.mpr h), String.toList_ofList]

theorem toList_writeInt_of_neg {n : Int} (h : n < 0) :
    (writeInt n).toList = '-' :: Nat.toDigits 10 n.natAbs := by
  have hdigits : (String.ofList (Nat.toDigits 10 n.natAbs)).toList = Nat.toDigits 10 n.natAbs :=
    String.toList_ofList
  unfold writeInt
  rw [if_pos h, String.toList_append, hdigits]
  rfl

/-- Every number is read back as it was written. -/
theorem readInt?_writeInt (n : Int) : readInt? (writeInt n).toList = some n := by
  by_cases h : 0 ≤ n
  · rw [toList_writeInt_of_nonneg h]
    obtain ⟨c, cs, hcs⟩ :=
      List.exists_cons_of_ne_nil (Nat.toDigits_ne_nil (n := n.natAbs) (b := 10))
    have hc : c.isDigit = true := isDigit_of_mem_toDigits (n := n.natAbs) (by rw [hcs]; simp)
    rw [hcs, readInt?_of_isDigit hc, ← hcs, readDigits?_toDigits, Option.map_some]
    exact congrArg some (Int.natAbs_of_nonneg h)
  · have hneg : n < 0 := Int.not_le.mp h
    rw [toList_writeInt_of_neg hneg]
    show ((readDigits? (Nat.toDigits 10 n.natAbs)).bind fun m => some (m : Int)).map
      (fun m => -m) = some n
    rw [readDigits?_toDigits, Option.bind_some, Option.map_some]
    exact congrArg some (by omega)

end Ember.Text
