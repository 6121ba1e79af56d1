import Ember.Proofs.Eval.Discipline
import Ember.Proofs.Value.Alike

/-!
# Arrays as lists

An element access counts from zero, and outside of the array there is `null`. `first`, `last`,
`rest` and `push` are operations on the list of elements, and element accesses tell which. They
leave the scopes alone: what they make is a new array, with an identity that was not given out
before (`run_rest_cons`, `run_push_array`). A call that is not made as it should be is a runtime
error and never a fault (`run_of_length_ne`, `run_of_not_array`).

`restTimes` takes the rest again and again, as a recursion over an array does. It gets to the empty
array and to `null` one step later (`restTimes_array`). Everything together is `array_laws`.
-/

namespace Ember

open Builtin

variable {id : Identity} {es : List Value} {v w : Value} {m : Machine} {i : Int64}

/-! ## Element access -/

theorem evalIndex_of_neg (hi : i.toInt < 0) :
    evalIndex (.array id es) (.integer i) = .ok .null := by
  rw [evalIndex, if_pos (Int64.lt_iff_toInt_lt.mpr hi)]

theorem evalIndex_of_nonneg (hi : 0 ≤ i.toInt) :
    evalIndex (.array id es) (.integer i) = .ok (es[i.toInt.toNat]?.getD .null) := by
  have hneg : ¬i < 0 := fun h => absurd (Int64.lt_iff_toInt_lt.mp h) (Int.not_lt.mpr hi)
  rw [evalIndex, if_neg hneg]

theorem evalIndex_of_eq {k : Nat} (hi : i.toInt = k) :
    evalIndex (.array id es) (.integer i) = .ok (es[k]?.getD .null) := by
  rw [evalIndex_of_nonneg (by omega), hi, Int.toNat_natCast]

theorem evalIndex_of_getElem? {k : Nat} (hi : i.toInt = k) (h : es[k]? = some v) :
    evalIndex (.array id es) (.integer i) = .ok v := by
  rw [evalIndex_of_eq hi, h, Option.getD_some]

/-- Past either end there is nothing to be found. -/
theorem evalIndex_of_outside (hi : i.toInt < 0 ∨ es.length ≤ i.toInt) :
    evalIndex (.array id es) (.integer i) = .ok .null := by
  rcases hi with hi | hi
  · exact evalIndex_of_neg hi
  · rw [evalIndex_of_nonneg (by omega), List.getElem?_eq_none (by omega), Option.getD_none]

/-! ## What the calls do -/

/-- The number of elements, as far as it fits. -/
theorem toInt_ofLength (n : Nat) : (ofLength n).toInt = min (n : Int) largest := by
  unfold ofLength
  cases h : fit? n with
  | some k =>
    have hk := fit?_eq_some_iff.mp h
    have hle := toInt_le_largest k
    rw [Option.getD_some]
    omega
  | none =>
    have hbig := fit?_eq_none_iff.mp h
    have hmax : Int64.maxValue.toInt = largest := by decide
    have hsmall : smallest ≤ 0 := by decide
    rw [Option.getD_none, hmax]
    omega

/-- The machine when an identity has been drawn. -/
def Machine.drawn (m : Machine) : Machine := { m with heap := m.heap.freshIdentity.2 }

/-- Heaps with the same scopes find the same under every name. -/
theorem Heap.lookup_congr {h h' : Heap} (hs : h'.scopes = h.scopes) (scope : ScopeId)
    (name : String) : h'.lookup scope name = h.lookup scope name := by
  induction hn : scope.index using Nat.strongRecOn generalizing scope with
  | ind n ih =>
    rw [lookup_eq h', lookup_eq h]
    have hbinding : h'.binding? scope name = h.binding? scope name := by
      unfold binding? scope?
      rw [hs]
    have houter : h'.outer? scope = h.outer? scope := by
      unfold outer? scope?
      rw [hs]
    rw [hbinding, houter]
    congr 2
    funext o
    split
    · exact ih o.index (by omega) o rfl
    · rfl

/-- Every name has the value that it had, and nothing is called or printed in between. -/
structure Machine.Undisturbed (m n : Machine) : Prop where
  lookup : ∀ scope name, n.heap.lookup scope name = m.heap.lookup scope name
  calls : n.calls = m.calls
  printer : n.printer = m.printer

theorem Machine.undisturbed_drawn (m : Machine) : m.Undisturbed m.drawn where
  lookup := Heap.lookup_congr rfl
  calls := rfl
  printer := rfl

namespace Builtin

theorem run_len_array : len.run [.array id es] m = .ok (.integer (ofLength es.length)) m := rfl

theorem run_first_array : first.run [.array id es] m = .ok (es.head?.getD .null) m := rfl

theorem run_last_array : last.run [.array id es] m = .ok (es.getLast?.getD .null) m := rfl

theorem run_rest_nil : rest.run [.array id []] m = .ok .null m := rfl

theorem run_rest_cons :
    rest.run [.array id (v :: es)] m = .ok (.array m.heap.freshIdentity.1 es) m.drawn := rfl

theorem run_push_array : push.run [.array id es, v] m
    = .ok (.array m.heap.freshIdentity.1 (es ++ [v])) m.drawn := rfl

/-- The number of arguments of a builtin whose first argument has to be an array. -/
def arrayArity? : Builtin → Option Nat
  | first | last | rest => some 1
  | push => some 2
  | len | puts => none

/-- A wrong number of arguments, whatever they are. -/
theorem run_of_length_ne {b : Builtin} {n : Nat} {args : List Value} (hb : b.arrayArity? = some n)
    (h : args.length ≠ n) :
    b.run args m = .error (.error (.builtinArity args.length n)) m := by
  cases b with
  | first | last | rest =>
    cases hb
    rcases args with _ | ⟨v, _ | ⟨w, more⟩⟩
    · rfl
    · exact absurd rfl h
    · rfl
  | push =>
    cases hb
    rcases args with _ | ⟨v, _ | ⟨w, _ | ⟨x, more⟩⟩⟩
    · rfl
    · rfl
    · exact absurd rfl h
    · rfl
  | len | puts => cases hb

/-- The right number of arguments, of which the first is not an array. -/
theorem run_of_not_array {b : Builtin} {n : Nat} {more : List Value} (hb : b.arrayArity? = some n)
    (hn : (v :: more).length = n) (hv : v.type ≠ .array) :
    b.run (v :: more) m = .error (.error (.notArray b v.type)) m := by
  cases b with
  | first | last | rest =>
    cases hb
    rcases more with _ | ⟨w, more⟩
    · cases v with
      | array id es => exact absurd rfl hv
      | _ => rfl
    · cases hn
  | push =>
    cases hb
    rcases more with _ | ⟨w, _ | ⟨x, more⟩⟩
    · cases hn
    · cases v with
      | array id es => exact absurd rfl hv
      | _ => rfl
    · cases hn
  | len | puts => cases hb

end Builtin

/-! ## The rest of the rest -/

/-- The rest of a value, taken so many times. -/
def restTimes : Nat → Value → Eval Value
  | 0, v => pure v
  | n + 1, v => do
    let r ← rest.run [v]
    restTimes n r

/-- As long as there are elements, each step drops one. -/
theorem restTimes_array {n : Nat} (h : n ≤ es.length) : ∃ id' m', ∀ more,
    restTimes (n + more) (.array id es) m = restTimes more (.array id' (es.drop n)) m' := by
  induction n generalizing id es m with
  | zero => exact ⟨id, m, fun more => by rw [Nat.zero_add, List.drop_zero]⟩
  | succ n ih =>
    cases es with
    | nil => exact absurd h (Nat.not_succ_le_zero n)
    | cons e es =>
      obtain ⟨id', m', hrun⟩ := ih (Nat.le_of_succ_le_succ h)
      refine ⟨id', m', fun more => ?_⟩
      rw [Nat.succ_add, restTimes, Eval.bind_of_ok run_rest_cons, hrun, List.drop_succ_cons]

/-- As many steps as there are elements lead to the empty array, and the next one to `null`. -/
theorem restTimes_length (id : Identity) (es : List Value) (m : Machine) :
    ∃ id' m', restTimes es.length (.array id es) m = .ok (.array id' []) m' ∧
      restTimes (es.length + 1) (.array id es) m = .ok .null m' := by
  have hall : ∃ id' m', ∀ more, restTimes (es.length + more) (.array id es) m
      = restTimes more (.array id' (es.drop es.length)) m' := restTimes_array (Nat.le_refl _)
  obtain ⟨id', m', hrun⟩ := hall
  rw [List.drop_length] at hrun
  refine ⟨id', m', hrun 0, ?_⟩
  rw [hrun 1, restTimes, Eval.bind_of_ok run_rest_nil]
  rfl

/-! ## The laws -/

/-- The first and the last element are found by their numbers. -/
theorem first_and_last (he : es ≠ []) (m : Machine) : ∃ x y,
    first.run [.array id es] m = .ok x m ∧ last.run [.array id es] m = .ok y m ∧
    (∀ i : Int64, i.toInt = 0 → evalIndex (.array id es) (.integer i) = .ok x) ∧
    (∀ i : Int64, i.toInt = es.length - 1 → evalIndex (.array id es) (.integer i) = .ok y) ∧
    x ∈ es ∧ y ∈ es := by
  have hpos : 0 < es.length := List.length_pos_iff.mpr he
  have hfirst := List.head?_eq_some_head he
  have hlast := List.getLast?_eq_some_getLast he
  refine ⟨es.head he, es.getLast he, ?_, ?_, fun i hi => ?_, fun i hi => ?_,
    List.head_mem he, List.getLast_mem he⟩
  · rw [run_first_array, hfirst, Option.getD_some]
  · rw [run_last_array, hlast, Option.getD_some]
  · rw [List.head?_eq_getElem?] at hfirst
    exact evalIndex_of_getElem? hi hfirst
  · rw [List.getLast?_eq_getElem?] at hlast
    exact evalIndex_of_getElem? (k := es.length - 1) (by omega) hlast

/-- Behind the first element the rest has what the array has, one place earlier. -/
theorem rest_of_ne_nil (he : es ≠ []) (m : Machine) : ∃ id' es',
    rest.run [.array id es] m = .ok (.array id' es') m.drawn ∧ es'.length = es.length - 1 ∧
    ∀ i j : Int64, 0 ≤ i.toInt → i.toInt < es'.length → j.toInt = i.toInt + 1 →
      evalIndex (.array id' es') (.integer i) = evalIndex (.array id es) (.integer j) := by
  obtain ⟨e, es, rfl⟩ := List.exists_cons_of_ne_nil he
  refine ⟨_, es, run_rest_cons, rfl, fun i j hi _ hj => ?_⟩
  obtain ⟨k, hk⟩ := Int.eq_ofNat_of_zero_le hi
  rw [evalIndex_of_eq hk, evalIndex_of_eq (k := k + 1) (by omega), List.getElem?_cons_succ]

/-- A value that is pushed comes last, in a new array. -/
theorem push_array (id : Identity) (es : List Value) (v : Value) (m : Machine) : ∃ es',
    push.run [.array id es, v] m = .ok (.array m.heap.freshIdentity.1 es') m.drawn ∧
    es'.length = es.length + 1 ∧
    (∀ (id' : Identity) (i : Int64), 0 ≤ i.toInt → i.toInt < es.length →
      evalIndex (.array id' es') (.integer i) = evalIndex (.array id es) (.integer i)) ∧
    ∀ (id' : Identity) (i : Int64), i.toInt = es.length →
      evalIndex (.array id' es') (.integer i) = .ok v := by
  refine ⟨es ++ [v], run_push_array, List.length_append, fun id' i hi hlt => ?_, fun id' i hi => ?_⟩
  · rw [evalIndex_of_nonneg hi, evalIndex_of_nonneg hi, List.getElem?_append_left (by omega)]
  · exact evalIndex_of_getElem? hi List.getElem?_concat_length

/--
The builtins for arrays and the element access obey the laws of lists. An element access finds the
element with that number, and `null` under every other number. The first and the last element are
those with the lowest and the highest number, the very same values. The rest has one element less,
each found one place earlier. Pushing adds one at the end and changes nothing of the array or
anything else. Every other list of arguments is a runtime error. Taking the rest as often as there
are elements leads to the empty array, and once more to `null`.
-/
theorem array_laws (id : Identity) (es : List Value) (v : Value) (m : Machine) :
    let a := Value.array id es
    ((∀ (k : Nat) (hk : k < es.length) (i : Int64), i.toInt = k →
        evalIndex a (.integer i) = .ok es[k]) ∧
      ∀ i : Int64, i.toInt < 0 ∨ es.length ≤ i.toInt → evalIndex a (.integer i) = .ok .null) ∧
    (∃ n : Int64, len.run [a] m = .ok (.integer n) m ∧ n.toInt = min (es.length : Int) largest) ∧
    (es ≠ [] → ∃ x y, first.run [a] m = .ok x m ∧ last.run [a] m = .ok y m ∧
      (∀ i : Int64, i.toInt = 0 → evalIndex a (.integer i) = .ok x) ∧
      (∀ i : Int64, i.toInt = es.length - 1 → evalIndex a (.integer i) = .ok y) ∧
      (a.IsBuilt → x.alike x = true ∧ y.alike y = true)) ∧
    (es ≠ [] → ∃ id' es' n, rest.run [a] m = .ok (.array id' es') n ∧ m.Undisturbed n ∧
      es'.length = es.length - 1 ∧
      ∀ i j : Int64, 0 ≤ i.toInt → i.toInt < es'.length → j.toInt = i.toInt + 1 →
        evalIndex (.array id' es') (.integer i) = evalIndex a (.integer j)) ∧
    (es = [] → first.run [a] m = .ok .null m ∧ last.run [a] m = .ok .null m ∧
      rest.run [a] m = .ok .null m) ∧
    (∃ id' es' n, push.run [a, v] m = .ok (.array id' es') n ∧ m.Undisturbed n ∧
      id' = ⟨m.heap.nextSerial⟩ ∧ es'.length = es.length + 1 ∧
      (∀ i : Int64, 0 ≤ i.toInt → i.toInt < es.length →
        evalIndex (.array id' es') (.integer i) = evalIndex a (.integer i)) ∧
      ∀ i : Int64, i.toInt = es.length → evalIndex (.array id' es') (.integer i) = .ok v) ∧
    (∀ (b : Builtin) (n : Nat), b.arrayArity? = some n →
      (∀ args : List Value, args.length ≠ n →
        b.run args m = .error (.error (.builtinArity args.length n)) m) ∧
      ∀ (w : Value) (more : List Value), (w :: more).length = n → w.type ≠ .array →
        b.run (w :: more) m = .error (.error (.notArray b w.type)) m) ∧
    ∃ id' n, restTimes es.length a m = .ok (.array id' []) n ∧
      restTimes (es.length + 1) a m = .ok .null n := by
  intro a
  refine ⟨⟨fun k hk i hi => ?_, fun i hi => evalIndex_of_outside hi⟩, ⟨_, run_len_array, ?_⟩,
    fun he => ?_, fun he => ?_, ?_, ?_, fun b n hb => ?_, restTimes_length id es m⟩
  · exact evalIndex_of_getElem? hi (List.getElem?_eq_getElem hk)
  · exact toInt_ofLength es.length
  · obtain ⟨x, y, hx, hy, hfirst, hlast, hxs, hys⟩ := first_and_last he m
    refine ⟨x, y, hx, hy, hfirst, hlast, fun ha => ?_⟩
    exact ⟨Value.alike_refl (ha.element hxs), Value.alike_refl (ha.element hys)⟩
  · obtain ⟨id', es', hrun, hlen, hindex⟩ := rest_of_ne_nil he m
    exact ⟨id', es', _, hrun, m.undisturbed_drawn, hlen, hindex⟩
  · rintro rfl
    exact ⟨rfl, rfl, rfl⟩
  · obtain ⟨es', hrun, hlen, hkept, hnew⟩ := push_array id es v m
    exact ⟨_, es', _, hrun, m.undisturbed_drawn, rfl, hlen, hkept _, hnew _⟩
  · exact ⟨fun args h => run_of_length_ne hb h, fun w more h hw => run_of_not_array hb h hw⟩

/--
An array of two: its parts, and what is found below, above and far above its elements. A string is
not an array, and pushing takes two arguments.
-/
theorem array_laws_two :
    let es : List Value := [.integer 7, .string "x"]
    let a := Value.array ⟨0⟩ es
    let m := Machine.start none .silent
    es ≠ [] ∧ (∃ x y, first.run [a] m = .ok x m ∧ last.run [a] m = .ok y m ∧
      evalIndex a (.integer 0) = .ok x ∧ evalIndex a (.integer 1) = .ok y) ∧
    evalIndex a (.integer 1) = .ok es[1] ∧
    evalIndex a (.integer (-1)) = .ok .null ∧
    evalIndex a (.integer Int64.maxValue) = .ok .null ∧
    rest.run [.string "x"] m = .error (.error (.notArray .rest .string)) m ∧
    push.run [a] m = .error (.error (.builtinArity 1 2)) m := by
  intro es a m
  obtain ⟨⟨hin, hout⟩, -, hparts, -, -, -, hwrong, -⟩ := array_laws ⟨0⟩ es .null m
  have hne : es ≠ [] := List.cons_ne_nil _ _
  obtain ⟨x, y, hx, hy, hfirst, hlast, -⟩ := hparts hne
  refine ⟨hne, ⟨x, y, hx, hy, hfirst 0 (by decide), hlast 1 (by decide)⟩,
    hin 1 (by decide) 1 (by decide), hout (-1) (.inl (by decide)), ?_, ?_, ?_⟩
  · exact hout Int64.maxValue (.inr (by decide))
  · exact (hwrong .rest 1 rfl).2 (.string "x") [] rfl (by decide)
  · exact (hwrong .push 2 rfl).1 [a] (by decide)

end Ember
