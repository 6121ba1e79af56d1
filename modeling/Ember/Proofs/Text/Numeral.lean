import Ember.Proofs.Text.Decimal
import Ember.Proofs.Text.Trim
import Mathlib.Data.List.Induction
import Mathlib.Data.Nat.Digits.Defs

/-!
# Numbers with blank characters around them

Which texts are read as a natural number once they are trimmed, said without trimming or reading
(`Spells`): blank characters, at most one plus sign, one or more digits, blank characters. The
digits count by their place, so leading zeros make no difference. `readNat?_trim_eq_some_iff` is the
equivalence.
-/

namespace Ember.Text

variable {c : Char} {cs core before after sign digits : List Char} {n : Nat}

/-! ## Digits and their places -/

/-- The value of digits is that of each by its place. -/
theorem valueFrom_eq_ofDigits (cs : List Char) :
    valueFrom 0 cs = Nat.ofDigits 10 (cs.reverse.map digitValue) := by
  induction cs using List.reverseRecOn with
  | nil => rfl
  | append_singleton cs c ih =>
    rw [valueFrom_append, ih, List.reverse_append, List.reverse_singleton, List.singleton_append,
      List.map_cons, Nat.ofDigits_cons]
    exact Nat.add_comm _ _

theorem readDigits?_eq_some_iff : readDigits? digits = some n ↔
    digits ≠ [] ∧ (∀ c ∈ digits, c.isDigit = true) ∧
      Nat.ofDigits 10 (digits.reverse.map digitValue) = n := by
  unfold readDigits?
  rw [valueFrom_eq_ofDigits, Option.ite_none_right_eq_some, Option.some.injEq, List.all_eq_true,
    and_assoc]

/-- A text whose first character is no plus sign is read as digits. -/
theorem readNat?_of_isDigit (h : c.isDigit = true) (cs : List Char) :
    readNat? (c :: cs) = readDigits? (c :: cs) := by
  unfold readNat?
  split
  · next heq =>
    rw [(List.cons.inj heq).1] at h
    exact absurd h (by decide)
  · rfl

theorem readNat?_eq_some_iff : readNat? cs = some n ↔
    ∃ sign digits, cs = sign ++ digits ∧ (sign = [] ∨ sign = ['+']) ∧
      readDigits? digits = some n := by
  constructor
  · intro h
    unfold readNat? at h
    split at h
    · next digits => exact ⟨['+'], digits, rfl, .inr rfl, h⟩
    · exact ⟨[], cs, rfl, .inl rfl, h⟩
  · rintro ⟨_, digits, rfl, rfl | rfl, h⟩
    · obtain ⟨hne, hall, -⟩ := readDigits?_eq_some_iff.mp h
      obtain ⟨c, digits, rfl⟩ := List.exists_cons_of_ne_nil hne
      rw [List.nil_append, readNat?_of_isDigit (hall c List.mem_cons_self), h]
    · exact h

/-! ## Numerals -/

/--
The text is a numeral of the number: digits, at most one plus sign in front, and blank characters
around.
-/
def Spells (cs : List Char) (n : Nat) : Prop :=
  ∃ before sign digits after, cs = before ++ (sign ++ digits) ++ after ∧
    (∀ c ∈ before, isBlank c = true) ∧ (∀ c ∈ after, isBlank c = true) ∧
    (sign = [] ∨ sign = ['+']) ∧ digits ≠ [] ∧ (∀ c ∈ digits, c.isDigit = true) ∧
    Nat.ofDigits 10 (digits.reverse.map digitValue) = n

theorem isBlank_of_isDigit (h : c.isDigit = true) : isBlank c = false := by
  have hrange : 48 ≤ c.toNat ∧ c.toNat ≤ 57 := by
    simpa [Char.isDigit, UInt32.le_iff_toNat_le] using h
  simp only [isBlank, Bool.or_eq_false_iff, Bool.and_eq_false_iff, decide_eq_false_iff_not,
    beq_eq_false_iff_ne]
  omega

/-- A trimmed text is read as a number exactly if the text is a numeral of it. -/
theorem readNat?_trim_eq_some_iff : readNat? (trim cs) = some n ↔ Spells cs n := by
  simp only [readNat?_eq_some_iff, readDigits?_eq_some_iff]
  constructor
  · rintro ⟨sign, digits, htrim, hsign, hdigits⟩
    obtain ⟨before, after, hcs, hbefore, hafter⟩ := exists_eq_trim cs
    rw [htrim] at hcs
    exact ⟨before, sign, digits, after, hcs, hbefore, hafter, hsign, hdigits⟩
  · rintro ⟨before, sign, digits, after, rfl, hbefore, hafter, hsign, hdigits⟩
    refine ⟨sign, digits, trim_append hbefore hafter ?_, hsign, hdigits⟩
    intro c hc
    rcases List.mem_append.mp hc with hc | hc
    · rcases hsign with rfl | rfl
      · cases hc
      · rw [List.mem_singleton.mp hc]
        decide
    · exact isBlank_of_isDigit (hdigits.2.1 c hc)

end Ember.Text
