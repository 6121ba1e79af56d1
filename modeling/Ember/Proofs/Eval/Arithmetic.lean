import Ember.Proofs.Eval.Discipline
import Mathlib.Algebra.Ring.Int.Defs

/-!
# Arithmetic is exact

The result of an operator on two integers is the one of the integers if it fits in 64 bits, and else
there is an error (`Exact`). Nothing wraps around. What fits is said here by its bounds (`Fits`).

For a whole tree of arithmetic, its value in the integers (`Arithmetic.value`) and the steps of the
computation are told from the tree alone. The steps come in the order of evaluation: the operands
before the operator, the left one first (`Arithmetic.steps`). Each has a value in the integers, so
it can be said which of them fail (`Arithmetic.failure?`). The evaluator comes to the value if none
of them does, and else to the error of the first that fails (`Arithmetic.expr_toExpr`).
-/

namespace Ember

/-- The number fits in 64 bits, one of them for the sign. -/
def Fits (n : Int) : Prop := -2 ^ 63 ≤ n ∧ n < 2 ^ 63

instance (n : Int) : Decidable (Fits n) := inferInstanceAs (Decidable (_ ∧ _))

section Fits

variable {n : Int}

/-- A number of the machine fits. -/
theorem fits_toInt (a : Int64) : Fits a.toInt := ⟨a.le_toInt, a.toInt_lt⟩

theorem fits_iff : Fits n ↔ smallest ≤ n ∧ n ≤ largest := by
  simp only [Fits, smallest, largest]
  omega

/-- A number that fits is stored as it is. -/
theorem toInt_ofInt_of_fits (h : Fits n) : (Int64.ofInt n).toInt = n :=
  Int64.toInt_ofInt_of_le h.1 h.2

theorem fit?_of_fits (h : Fits n) : fit? n = some (.ofInt n) := if_pos (fits_iff.mp h)

theorem fit?_of_not_fits (h : ¬Fits n) : fit? n = none :=
  fit?_eq_none_iff.mpr fun hbounds => h (fits_iff.mpr hbounds)

/-- A quotient of numbers that fit does so too, with one exception. -/
theorem not_fits_tdiv_iff {x y : Int} (hx : Fits x) (hy : y ≠ 0) :
    ¬Fits (x.tdiv y) ↔ x = -2 ^ 63 ∧ y = -1 := by
  unfold Fits at *
  rcases (by omega : y = 1 ∨ y = -1 ∨ 2 ≤ y.natAbs) with rfl | rfl | hy
  · rw [Int.tdiv_one]
    omega
  · rw [Int.tdiv_neg, Int.tdiv_one]
    omega
  · -- The quotient is at most half as far from zero as the dividend.
    have hhalf : (x.tdiv y).natAbs ≤ x.natAbs / 2 := by
      rw [Int.natAbs_tdiv]
      exact Nat.div_le_div_left hy (by decide)
    omega

end Fits

/-! ## Single operators -/

/-- The result is the number if that fits, and else the error. -/
def Exact (r : Except RuntimeError Value) (n : Int) (overflow : RuntimeError) : Prop :=
  (Fits n → ∃ a : Int64, a.toInt = n ∧ r = .ok (.integer a)) ∧ (¬Fits n → r = .error overflow)

/-- An operator of arithmetic. -/
inductive ArithmeticOp where
  | add
  | sub
  | mul
  | div
deriving DecidableEq

namespace ArithmeticOp

/-- The operator of the language. -/
def toBinaryOp : ArithmeticOp → BinaryOp
  | add => .add
  | sub => .sub
  | mul => .mul
  | div => .div

/-- The operation on integers. A quotient is rounded toward zero. -/
def onInt : ArithmeticOp → Int → Int → Int
  | add, x, y => x + y
  | sub, x, y => x - y
  | mul, x, y => x * y
  | div, x, y => x.tdiv y

/-- The error of the operation on two numbers, if it is in error. -/
def failure? (op : ArithmeticOp) (x y : Int) : Option RuntimeError :=
  if op = div ∧ y = 0 then some .divisionByZero
  else if Fits (op.onInt x y) then none
  else some (.integerOverflow (.ofInt x) op.toBinaryOp (.ofInt y))

end ArithmeticOp

section Operators

variable {a b : Int64} {n : Int} {r : Except RuntimeError Value} {e : RuntimeError}

/-- Where the exact number fits, it is the answer. -/
theorem Exact.eq_of_fits (h : Exact r n e) (hn : Fits n) : r = .ok (.integer (.ofInt n)) := by
  obtain ⟨w, rfl, hw⟩ := h.1 hn
  rw [hw, Int64.ofInt_toInt]

/-- The error is there only where the number does not fit. -/
theorem Exact.eq_error_iff (h : Exact r n e) : r = .error e ↔ ¬Fits n := by
  refine ⟨fun hr hn => ?_, h.2⟩
  cases hr.symm.trans (h.eq_of_fits hn)

/-- What becomes of a number that is kept if it fits. -/
theorem exact_fit? (n : Int) (e : RuntimeError) :
    Exact ((fit? n).elim (.error e) fun a => .ok (.integer a)) n e := by
  constructor
  · intro h
    rw [fit?_of_fits h]
    exact ⟨_, toInt_ofInt_of_fits h, rfl⟩
  · intro h
    rw [fit?_of_not_fits h]
    rfl

/-- A result that could not be stored is an overflow, with both operands. -/
theorem orOverflow_eq (a : Int64) (op : BinaryOp) (b : Int64) (o : Option Int64) :
    orOverflow a op b o = o.elim (.error (.integerOverflow a op b)) fun n => .ok (.integer n) := by
  cases o <;> rfl

/-- Zero is looked for before the division is made. -/
theorem evalBinary_divide (a b : Int64) : evalBinary (.integer a) .div (.integer b) =
    if b = 0 then .error .divisionByZero else orOverflow a .div b (divExact? a b) := rfl

theorem toInt_eq_zero_iff : b.toInt = 0 ↔ b = 0 := by
  rw [← Int64.toInt_zero, Int64.toInt_inj]

/-- Division fails for zero if and only if the divisor is zero. -/
theorem evalBinary_divide_eq_iff (a b : Int64) :
    evalBinary (.integer a) .div (.integer b) = .error .divisionByZero ↔ b.toInt = 0 := by
  rw [evalBinary_divide, toInt_eq_zero_iff]
  split
  · next h => exact iff_of_true rfl h
  · next h =>
    refine iff_of_false ?_ h
    rw [orOverflow_eq]
    cases divExact? a b <;> exact nofun

/-- Unless a number is divided by zero, the result is exact. -/
theorem exact_evalBinary (a : Int64) (op : ArithmeticOp) (h : ¬(op = .div ∧ b.toInt = 0)) :
    Exact (evalBinary (.integer a) op.toBinaryOp (.integer b)) (op.onInt a.toInt b.toInt)
      (.integerOverflow a op.toBinaryOp b) := by
  have hexact : ∀ n, Exact (orOverflow a op.toBinaryOp b (fit? n)) n
      (.integerOverflow a op.toBinaryOp b) := fun n => by
    rw [orOverflow_eq]
    exact exact_fit? n _
  cases op with
  | add | sub | mul => exact hexact _
  | div =>
    have hb : b ≠ 0 := fun hb => h ⟨rfl, toInt_eq_zero_iff.mpr hb⟩
    show Exact (evalBinary (.integer a) .div (.integer b)) _ _
    rw [evalBinary_divide, if_neg hb]
    exact hexact _

/-- Negation fails by overflow only. -/
theorem evalUnary_neg (a : Int64) : evalUnary .neg (.integer a) =
    (negExact? a).elim (.error (.negationOverflow a)) fun b => .ok (.integer b) := by
  have hsignal : (Value.integer a).isSignal = false := rfl
  cases hneg : negExact? a with
  | none => simp only [evalUnary, hsignal, hneg, Bool.false_eq_true, ↓reduceIte, Option.elim_none]
  | some b => simp only [evalUnary, hsignal, hneg, Bool.false_eq_true, ↓reduceIte, Option.elim_some]

/-- Negation gives the negative number, or its own overflow where that does not fit. -/
theorem exact_evalUnary (a : Int64) :
    Exact (evalUnary .neg (.integer a)) (-a.toInt) (.negationOverflow a) := by
  rw [evalUnary_neg]
  exact exact_fit? _ _

/-- The result of an operator, or the error that the numbers lead to. -/
theorem evalBinary_eq_failure? (a : Int64) (op : ArithmeticOp) (b : Int64) :
    evalBinary (.integer a) op.toBinaryOp (.integer b) =
      match op.failure? a.toInt b.toInt with
      | none => .ok (.integer (.ofInt (op.onInt a.toInt b.toInt)))
      | some e => .error e := by
  unfold ArithmeticOp.failure?
  by_cases hzero : op = .div ∧ b.toInt = 0
  · obtain ⟨rfl, hb⟩ := hzero
    rw [if_pos ⟨rfl, hb⟩]
    exact (evalBinary_divide_eq_iff a b).mpr hb
  · have hexact := exact_evalBinary a op hzero
    rw [if_neg hzero]
    by_cases hfits : Fits (op.onInt a.toInt b.toInt)
    · rw [if_pos hfits]
      exact hexact.eq_of_fits hfits
    · rw [if_neg hfits, Int64.ofInt_toInt, Int64.ofInt_toInt]
      exact hexact.2 hfits

end Operators

/-! ## Trees -/

/-- A tree of integer literals, prefix minus and the operators of arithmetic. -/
inductive Arithmetic where
  | literal (token : Token) (n : Int64)
  | negation (token : Token) (operand : Arithmetic)
  | operation (token : Token) (left : Arithmetic) (op : ArithmeticOp) (right : Arithmetic)

namespace Arithmetic

/-- The tree as an expression of the language. -/
def toExpr : Arithmetic → Expr
  | literal token n => .integer token n
  | negation token operand => .unary token .neg operand.toExpr
  | operation token left op right => .binary token left.toExpr op.toBinaryOp right.toExpr

/-- The value in the integers. -/
def value : Arithmetic → Int
  | literal _ n => n.toInt
  | negation _ operand => -operand.value
  | operation _ left op right => op.onInt left.value right.value

/-- The trees that are computed on the way, in the order of evaluation. The last is the whole. -/
def steps : Arithmetic → List Arithmetic
  | literal token n => [literal token n]
  | negation token operand => operand.steps ++ [negation token operand]
  | operation token left op right =>
    left.steps ++ right.steps ++ [operation token left op right]

/-- No divisor is zero, and every value on the way fits. -/
def Defined (t : Arithmetic) : Prop :=
  (∀ token left right, operation token left .div right ∈ t.steps → right.value ≠ 0) ∧
    ∀ s ∈ t.steps, Fits s.value

/-- The error of the last step, if that is in error. -/
def failure? : Arithmetic → Option RuntimeError
  | literal _ _ => none
  | negation _ operand =>
    if Fits (-operand.value) then none else some (.negationOverflow (.ofInt operand.value))
  | operation _ left op right => op.failure? left.value right.value

/-- The first error in the order of evaluation. -/
def firstFailure? (t : Arithmetic) : Option RuntimeError := t.steps.findSome? failure?

variable {t operand left right : Arithmetic} {token : Token} {op : ArithmeticOp}

/-- The last step of an expression is the expression. -/
theorem mem_steps (t : Arithmetic) : t ∈ t.steps := by
  cases t <;> simp [steps]

/-- A step goes well if it does not divide by zero and what it makes fits. -/
theorem failure?_eq_none_iff (t : Arithmetic) : t.failure? = none ↔
    (∀ token left right, t = operation token left .div right → right.value ≠ 0) ∧
      Fits t.value := by
  cases t with
  | literal token n => simp [failure?, value, fits_toInt]
  | negation token operand => simp [failure?, value]
  | operation token left op right =>
    by_cases hzero : op = .div ∧ right.value = 0
    · obtain ⟨rfl, hzero⟩ := hzero
      simp [failure?, ArithmeticOp.failure?, hzero]
    · have hdivisor : ∀ token' left' right', operation token left op right =
          operation token' left' .div right' → right'.value ≠ 0 := by
        rintro _ _ _ ⟨⟩ hright
        exact hzero ⟨rfl, hright⟩
      rw [failure?, ArithmeticOp.failure?, if_neg hzero, and_iff_right hdivisor, value]
      simp

/-- No step fails if and only if every step is defined. -/
theorem firstFailure?_eq_none_iff : t.firstFailure? = none ↔ t.Defined := by
  simp only [firstFailure?, List.findSome?_eq_none_iff, failure?_eq_none_iff, Defined]
  constructor
  · exact fun h => ⟨fun token l r hmem => (h _ hmem).1 token l r rfl, fun s hs => (h s hs).2⟩
  · rintro ⟨hdivisors, hfits⟩ s hs
    exact ⟨fun token l r heq => hdivisors token l r (heq ▸ hs), hfits s hs⟩

theorem toInt_ofInt_value (h : t.firstFailure? = none) : (Int64.ofInt t.value).toInt = t.value :=
  toInt_ofInt_of_fits ((firstFailure?_eq_none_iff.mp h).2 t t.mem_steps)

theorem firstFailure?_negation : (negation token operand).firstFailure? =
    operand.firstFailure?.or (negation token operand).failure? := by
  simp [firstFailure?, steps, List.findSome?_append]

/-- The left operand fails first, then the right one, and then the operator. -/
theorem firstFailure?_operation : (operation token left op right).firstFailure? =
    left.firstFailure?.or (right.firstFailure?.or (op.failure? left.value right.value)) := by
  simp [firstFailure?, steps, List.findSome?_append, failure?]

/-! ### What the evaluator comes to -/

/-- The value, or the first error. -/
def result (t : Arithmetic) : Except RuntimeError Value :=
  match t.firstFailure? with
  | none => .ok (.integer (.ofInt t.value))
  | some e => .error e

/-- If no step fails, the answer is the exact value. -/
theorem result_of_none (h : t.firstFailure? = none) :
    t.result = .ok (.integer (.ofInt t.value)) := by
  rw [result, h]

/-- The first step that fails is the answer. -/
theorem result_of_some {e : RuntimeError} (h : t.firstFailure? = some e) : t.result = .error e := by
  rw [result, h]

theorem result_negation : (negation token operand).result = operand.result >>= evalUnary .neg := by
  cases h : operand.firstFailure? with
  | some e =>
    rw [result_of_some h, result_of_some (e := e) (by rw [firstFailure?_negation, h]; rfl)]
    rfl
  | none =>
    have hexact := exact_evalUnary (.ofInt operand.value)
    rw [toInt_ofInt_value h] at hexact
    rw [result_of_none h, result, firstFailure?_negation, h, Option.none_or, failure?]
    by_cases hfits : Fits (-operand.value)
    · rw [if_pos hfits]
      exact (hexact.eq_of_fits hfits).symm
    · rw [if_neg hfits]
      exact (hexact.2 hfits).symm

theorem result_operation : (operation token left op right).result =
    left.result >>= fun a => right.result >>= fun b => evalBinary a op.toBinaryOp b := by
  cases hleft : left.firstFailure? with
  | some e =>
    rw [result_of_some hleft, result_of_some (e := e) (by rw [firstFailure?_operation, hleft]; rfl)]
    rfl
  | none =>
    cases hright : right.firstFailure? with
    | some e =>
      rw [result_of_none hleft, result_of_some hright,
        result_of_some (e := e) (by rw [firstFailure?_operation, hleft, hright]; rfl)]
      rfl
    | none =>
      have hbinary := evalBinary_eq_failure? (.ofInt left.value) op (.ofInt right.value)
      rw [toInt_ofInt_value hleft, toInt_ofInt_value hright] at hbinary
      rw [result_of_none hleft, result_of_none hright, result, firstFailure?_operation, hleft,
        hright, Option.none_or, Option.none_or]
      exact hbinary.symm

/-- A sequence of pure steps is one pure step of an evaluation. -/
theorem ofExcept_bind {α β : Type} (x : Except RuntimeError α) (f : α → Except RuntimeError β) :
    Eval.ofExcept (x >>= f) = Eval.ofExcept x >>= fun a => Eval.ofExcept (f a) := by
  cases x <;> rfl

/-- Evaluating the tree comes to its result, and nothing else happens. -/
theorem expr_toExpr (apply : Apply) (env : ScopeId) (t : Arithmetic) :
    Eval.expr apply env t.toExpr = Eval.ofExcept t.result := by
  induction t with
  | literal token n =>
    have hdefined : (literal token n).Defined := by simp [Defined, steps, value, fits_toInt]
    rw [result_of_none (firstFailure?_eq_none_iff.mpr hdefined), value, Int64.ofInt_toInt]
    rfl
  | negation token operand ih => rw [toExpr, Eval.expr, ih, result_negation, ofExcept_bind]
  | operation token left op right ihleft ihright =>
    rw [toExpr, Eval.expr, ihleft, ihright, result_operation, ofExcept_bind]
    simp only [ofExcept_bind]

/-! ## Arithmetic as a whole -/

/-- Whatever the machine and the scope, the program computes the exact value and changes nothing. -/
theorem expr_of_defined (h : t.Defined) : ∃ a : Int64, a.toInt = t.value ∧
    ∀ apply env m, Eval.expr apply env t.toExpr m = .ok (.integer a) m := by
  have hnone := firstFailure?_eq_none_iff.mpr h
  refine ⟨.ofInt t.value, toInt_ofInt_value hnone, fun apply env m => ?_⟩
  rw [expr_toExpr, result_of_none hnone]
  rfl

theorem expr_of_failure {e : RuntimeError} (h : t.firstFailure? = some e) (apply : Apply)
    (env : ScopeId) (m : Machine) : Eval.expr apply env t.toExpr m = .error (.error e) m := by
  rw [expr_toExpr, result_of_some h]
  rfl

/-- In `1 / 0 + -smallest`, the left operand fails first. -/
example (token : Token) :
    (operation token (operation token (literal token 1) .div (literal token 0)) .add
      (negation token (literal token (.ofInt smallest)))).firstFailure? =
        some .divisionByZero := rfl

/-- Where not everything is defined, there is a first step that fails. -/
theorem exists_failure (h : ¬t.Defined) : ∃ before s after e, t.steps = before ++ s :: after ∧
    (∀ r ∈ before, r.failure? = none) ∧ s.failure? = some e ∧ t.firstFailure? = some e := by
  rw [← firstFailure?_eq_none_iff] at h
  obtain ⟨e, he⟩ := Option.ne_none_iff_exists'.mp h
  obtain ⟨before, s, after, hsteps, hs, hbefore⟩ := List.findSome?_eq_some_iff.mp he
  exact ⟨before, s, after, e, hsteps, hbefore, hs, he⟩

end Arithmetic

/-- One division overflows. -/
theorem evalBinary_divide_overflow_iff (a b : Int64) :
    evalBinary (.integer a) .div (.integer b) = .error (.integerOverflow a .div b) ↔
      a.toInt = -2 ^ 63 ∧ b.toInt = -1 := by
  by_cases hb : b.toInt = 0
  · rw [(evalBinary_divide_eq_iff a b).mpr hb, hb]
    simp
  · have hexact := exact_evalBinary a .div fun h => hb h.2
    exact hexact.eq_error_iff.trans (not_fits_tdiv_iff (fits_toInt a) hb)

/-- Of all numbers of the machine only the smallest has no negative. -/
theorem evalUnary_overflow_iff (a : Int64) :
    evalUnary .neg (.integer a) = .error (.negationOverflow a) ↔ a.toInt = -2 ^ 63 := by
  obtain ⟨hlow, hhigh⟩ := fits_toInt a
  rw [(exact_evalUnary a).eq_error_iff, Fits]
  omega

/-- Comparing two numbers is comparing their values. -/
theorem evalBinary_compare (a b : Int64) :
    evalBinary (.integer a) .lt (.integer b) = .ok (.boolean (a.toInt < b.toInt)) ∧
      evalBinary (.integer a) .gt (.integer b) = .ok (.boolean (b.toInt < a.toInt)) ∧
      evalBinary (.integer a) .eq (.integer b) = .ok (.boolean (a.toInt = b.toInt)) ∧
      evalBinary (.integer a) .notEq (.integer b) = .ok (.boolean (a.toInt ≠ b.toInt)) := by
  have hlt : ∀ a b : Int64, decide (a < b) = decide (a.toInt < b.toInt) := fun a b =>
    decide_eq_decide.mpr Int64.lt_iff_toInt_lt
  have heq : (a == b) = decide (a.toInt = b.toInt) := by
    rw [Bool.eq_iff_iff, beq_iff_eq, decide_eq_true_eq, Int64.toInt_inj]
  refine ⟨?_, ?_, ?_, ?_⟩
  · rw [← hlt]
    rfl
  · rw [← hlt]
    rfl
  · rw [← heq]
    rfl
  · rw [decide_not, ← heq]
    rfl

/--
An operator on two integers, unless it divides by zero, gives the result in the integers if that
fits, and else the error of overflow. A division is in error for its divisor exactly if that is
zero, and it overflows for one dividend and one divisor only; negation overflows for one number
only. Comparing numbers is comparing their values. For a tree of arithmetic: if no divisor is zero
and every value on the way fits, it evaluates to its value in the integers; and else it ends in the
first error in the order of evaluation, from the left to the right.
-/
theorem arithmetic_exact (a b : Int64) (t : Arithmetic) :
    (∀ op : ArithmeticOp, ¬(op = .div ∧ b.toInt = 0) →
        Exact (evalBinary (.integer a) op.toBinaryOp (.integer b)) (op.onInt a.toInt b.toInt)
          (.integerOverflow a op.toBinaryOp b)) ∧
      (evalBinary (.integer a) .div (.integer b) = .error .divisionByZero ↔ b.toInt = 0) ∧
      (evalBinary (.integer a) .div (.integer b) = .error (.integerOverflow a .div b) ↔
        a.toInt = -2 ^ 63 ∧ b.toInt = -1) ∧
      Exact (evalUnary .neg (.integer a)) (-a.toInt) (.negationOverflow a) ∧
      (evalUnary .neg (.integer a) = .error (.negationOverflow a) ↔ a.toInt = -2 ^ 63) ∧
      (evalBinary (.integer a) .lt (.integer b) = .ok (.boolean (a.toInt < b.toInt)) ∧
        evalBinary (.integer a) .gt (.integer b) = .ok (.boolean (b.toInt < a.toInt)) ∧
        evalBinary (.integer a) .eq (.integer b) = .ok (.boolean (a.toInt = b.toInt)) ∧
        evalBinary (.integer a) .notEq (.integer b) = .ok (.boolean (a.toInt ≠ b.toInt))) ∧
      (t.Defined → ∃ w : Int64, w.toInt = t.value ∧ ∀ (m : Machine) (env : ScopeId),
        (∀ apply, Eval.expr apply env t.toExpr m = .ok (.integer w) m) ∧
          m.eval env (.expression t.toExpr) = (.value (.integer w), m)) ∧
      (¬t.Defined → ∃ before s after e, t.steps = before ++ s :: after ∧
        (∀ r ∈ before, r.failure? = none) ∧ s.failure? = some e ∧
        ∀ (m : Machine) (env : ScopeId),
          (∀ apply, Eval.expr apply env t.toExpr m = .error (.error e) m) ∧
            m.eval env (.expression t.toExpr) = (.value (.error e.message), m)) := by
  refine ⟨fun op => exact_evalBinary a op, evalBinary_divide_eq_iff a b,
    evalBinary_divide_overflow_iff a b, exact_evalUnary a, evalUnary_overflow_iff a,
    evalBinary_compare a b, fun h => ?_, fun h => ?_⟩
  · obtain ⟨w, hw, hexpr⟩ := Arithmetic.expr_of_defined h
    refine ⟨w, hw, fun m env => ⟨fun apply => hexpr apply env m, ?_⟩⟩
    exact congrArg Outcome.ofResult (hexpr (applyFunction m.callBudget) env m)
  · obtain ⟨before, s, after, e, hsteps, hbefore, hs, hfirst⟩ := Arithmetic.exists_failure h
    have hexpr := Arithmetic.expr_of_failure hfirst
    refine ⟨before, s, after, e, hsteps, hbefore, hs, fun m env => ⟨fun apply =>
      hexpr apply env m, ?_⟩⟩
    exact congrArg Outcome.ofResult (hexpr (applyFunction m.callBudget) env m)

end Ember
