import Ember.Proofs.Eval.Stepwise

/-!
# The call stack is balanced

At every moment there is a frame for each body under way, above the frames that were there at the
start: popping one for each body that waits gives the stack of the start (`Moment.Balanced`). When
nothing waits any more, nothing is left to pop. So an evaluation leaves the stack as it was, however
it ends, and on the way the stack stays within its limit (`Machine.calls_balanced`).
-/

namespace Ember

namespace CallStack

variable {s t : CallStack} {frame : CallFrame} {limit : Nat}

/-- The stack has a limit and is within it. -/
structure Limited (limit : Nat) (s : CallStack) : Prop where
  limit_eq : s.limit = some limit
  depth_le : s.depth ≤ limit

/-- A frame that is not refused stays within the limit. -/
theorem Limited.push (hs : s.Limited limit) (h : s.push frame = .ok t) : t.Limited limit where
  limit_eq := (limit_of_push h).trans hs.limit_eq
  depth_le := by
    rw [depth_of_push h]
    exact depth_lt_of_push h hs.limit_eq

theorem depth_pop_le (s : CallStack) : s.pop.depth ≤ s.depth := by simp [pop, depth]

theorem Limited.pop (hs : s.Limited limit) : s.pop.Limited limit :=
  ⟨hs.limit_eq, Nat.le_trans s.depth_pop_le hs.depth_le⟩

end CallStack

namespace Moment

variable {s : CallStack} {a b : Moment} {limit : Nat}

/-- Above the frames of the stack `s` there is one for each body under way. -/
def Balanced (s : CallStack) (a : Moment) : Prop :=
  CallStack.pop^[a.callers.length] a.machine.calls = s

/-- Frames are pushed and popped with the bodies that wait. -/
theorem Balanced.of_calls (ha : a.Balanced s) (h : a.Calls b) : b.Balanced s := by
  unfold Balanced at ha ⊢
  cases h with
  | same hcallers hcalls => rwa [hcallers, hcalls]
  | pushed hcallers hcalls =>
    rwa [hcallers, List.length_cons, Function.iterate_succ_apply, CallStack.pop_of_push hcalls]
  | popped hcallers hcalls =>
    rwa [hcallers, List.length_cons, Function.iterate_succ_apply, ← hcalls] at ha

theorem balanced_iterate_start (m : Machine) (env : ScopeId) (node : Node) (k : Nat) :
    (next^[k] (start m env node)).Balanced m.calls := by
  refine iterate_next (P := Balanced m.calls) (fun b hb => hb.of_calls b.calls_next) ?_ k
  rw [Balanced, callers_start, machine_start]
  rfl

/-- A step stays within the limit. -/
theorem Calls.limited (h : a.Calls b) (ha : a.machine.calls.Limited limit) :
    b.machine.calls.Limited limit := by
  cases h with
  | same _ hcalls => rwa [hcalls]
  | pushed _ hcalls => exact ha.push hcalls
  | popped _ hcalls => exact hcalls ▸ ha.pop

theorem limited_iterate (ha : a.machine.calls.Limited limit) (k : Nat) :
    (next^[k] a).machine.calls.Limited limit :=
  iterate_next (P := fun b => b.machine.calls.Limited limit)
    (fun b hb => b.calls_next.limited hb) ha k

end Moment

/-- An evaluation that ends has popped all the frames that it pushed. -/
theorem Machine.Finishes.calls_eq {m n : Machine} {env : ScopeId} {node : Node} {o : Outcome}
    (h : m.Finishes env node o n) : n.calls = m.calls := by
  obtain ⟨k, hk⟩ := h
  have hframes := Moment.balanced_iterate_start m env node k
  obtain ⟨_, -, -, hcallers, -⟩ := Moment.exists_of_outcome? hk
  rw [Moment.Balanced, hcallers] at hframes
  rw [Moment.machine_of_outcome? hk]
  exact hframes

/--
A node is evaluated in a scope of a reached heap, with a call stack that is within its limit. When
the evaluation ends, with a value, a `return`, an error or a fault, the stack holds the frames that
it held before. And at no moment of the evaluation are there more frames than the limit allows.
-/
theorem Machine.calls_balanced {m : Machine} {env : ScopeId} (hm : m.heap.Reached)
    (henv : m.heap.Has env)
    (hcalls : ∀ limit, m.calls.limit = some limit → m.calls.depth ≤ limit) (node : Node) :
    (∀ budget o n, m.evalWith budget env node = (o, n) → o ≠ .exhausted →
        m.Finishes env node o n ∧ n.calls = m.calls) ∧
      ∀ limit, m.calls.limit = some limit →
        ∀ k, (Moment.next^[k] (.start m env node)).machine.calls.depth ≤ limit := by
  constructor
  · intro budget o n h ho
    have hfinishes := finishes_of_evalWith hm.closed henv h ho
    exact ⟨hfinishes, hfinishes.calls_eq⟩
  · intro limit hlimit k
    have hstart : (Moment.start m env node).machine.calls.Limited limit := by
      rw [Moment.machine_start]
      exact ⟨hlimit, hcalls limit hlimit⟩
    exact (Moment.limited_iterate hstart k).depth_le

/-- A call is refused two calls deep, above a frame that was there before. -/
theorem Machine.calls_balanced_endless :
    ((endless (some 3)).eval ⟨0⟩ .endless).1 = .fault (.callDepth 3) ∧
      ((endless (some 3)).eval ⟨0⟩ .endless).2.calls = ⟨#[⟨"main", .origin⟩], some 3⟩ ∧
      ∀ k, (Moment.next^[k] (.start (endless (some 3)) ⟨0⟩ .endless)).machine.calls.depth ≤ 3 := by
  have hcalls : ∀ limit, some 3 = some limit → (endless (some 3)).calls.depth ≤ limit := by
    rintro _ ⟨⟩
    decide
  obtain ⟨hleft, hdepth⟩ := calls_balanced (m := endless (some 3)) Heap.reached_endless
    Heap.has_endless hcalls .endless
  have hne : ((endless (some 3)).eval ⟨0⟩ .endless).1 ≠ .exhausted := by simp [eval_endless]
  exact ⟨eval_endless, (hleft (endless (some 3)).callBudget _ _ rfl hne).2, hdepth 3 rfl⟩

end Ember
