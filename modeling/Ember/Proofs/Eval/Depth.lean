import Ember.Proofs.Eval.Discipline

/-!
# The limit on nested calls bounds the budget

With a limit on the call depth, the calls that may still be nested are as many as the limit leaves,
and a budget of that size is never used up (`Machine.eval_ne_exhausted`). A call that would need
more than the budget is refused by the stack before its body is run.

Every evaluation leaves the stack as it found it, whichever way it ends. The discipline has to say
so, because the depth decides what the rest of the budget is good for.
-/

namespace Ember

/-- The limit leaves no more calls than the budget has. -/
def Machine.Within (budget : Nat) (m : Machine) : Prop :=
  ∃ limit, m.calls.limit = some limit ∧ limit ≤ m.calls.depth + budget

/-- The budget is enough and is not used up, and the stack stays what it is. -/
def Discipline.bounded (budget : Nat) : Discipline where
  shape := .any
  Inv m := m.Within budget
  Step m n := n.calls = m.calls
  Good _ _ := True
  Unwinds _ u := u ≠ .exhausted

namespace Discipline

theorem lawful_bounded (budget : Nat) (env : ScopeId) : (bounded budget).Lawful env where
  refl _ := rfl
  trans h h' := h'.trans h
  mono _ _ := trivial
  plain _ _ _ := trivial
  element _ _ := trivial
  entry _ _ := trivial
  lookup _ _ := trivial
  bindName hm _ _ := .ok () _ rfl hm rfl trivial
  array hm _ := .ok _ _ rfl hm rfl trivial
  hash hm _ := .ok _ _ rfl hm rfl trivial
  function hm _ := .ok _ _ rfl hm rfl trivial
  println _ hm := .ok () _ rfl hm rfl trivial
  error _ _ := nofun
  returning _ := nofun
  placeholder _ _ _ := nofun
  unnamed _ _ _ _ := nofun

theorem lawfulScopes_bounded (budget : Nat) : (bounded budget).LawfulScopes where
  lawful := lawful_bounded budget
  literal _ := FunctionLiteral.hasShape_any _
  newScope _ hm := .ok _ _ rfl hm rfl trivial

/--
A frame is pushed only where the budget has a call left. The body is run with one call less, and the
frame is popped whatever it does.
-/
theorem keeps_inFrame_bounded {budget : Nat} {m : Machine} (hm : m.Within budget)
    (frame : CallFrame) {body : Eval Value}
    (hbody : ∀ rest, budget = rest + 1 → ∀ {n}, n.Within rest →
      (bounded rest).Keeps n body (bounded rest).Good) :
    (bounded budget).Keeps m (Eval.inFrame frame body) (bounded budget).Good := by
  cases hpush : m.calls.push frame with
  | error f => exact .error _ m (Eval.inFrame_of_push_error hpush) hm rfl nofun
  | ok calls =>
    obtain ⟨limit, hlimit, hle⟩ := hm
    have hlt := CallStack.depth_lt_of_push hpush hlimit
    -- A call that was let in has room below the limit, so the budget is not used up.
    obtain ⟨rest, rfl⟩ : ∃ rest, budget = rest + 1 := ⟨budget - 1, by omega⟩
    have hwithin : Machine.Within rest { m with calls } := by
      refine ⟨limit, (CallStack.limit_of_push hpush).trans hlimit, ?_⟩
      show limit ≤ calls.depth + rest
      rw [CallStack.depth_of_push hpush]
      omega
    have hpop : ∀ n : Machine, n.calls = calls → (Eval.popFrame n).calls = m.calls := by
      intro n hn
      show n.calls.pop = m.calls
      rw [hn, CallStack.pop_of_push hpush]
    have hinv : ∀ n : Machine, n.calls = calls → (Eval.popFrame n).Within (rest + 1) := by
      intro n hn
      unfold Machine.Within
      rw [hpop n hn]
      exact ⟨limit, hlimit, hle⟩
    cases hbody rest rfl hwithin with
    | ok v n run _ step _ =>
      exact .ok v _ (Eval.inFrame_of_ok hpush run) (hinv n step) (hpop n step) trivial
    | error u n run _ step unwinds =>
      by_cases hu : ∃ v, u = .returning v
      · obtain ⟨v, rfl⟩ := hu
        exact .ok v _ (Eval.inFrame_of_returning hpush run) (hinv n step) (hpop n step) trivial
      · exact .error u _ (Eval.inFrame_of_error hpush run fun v hv => hu ⟨v, hv⟩) (hinv n step)
          (hpop n step) unwinds

/-- A budget that the limit does not exceed is enough for every call. -/
theorem applies_bounded : ∀ budget, (bounded budget).Applies (applyFunction budget)
  | 0 => (lawfulScopes_bounded 0).callWith fun _ _ frame _ _ hm =>
    keeps_inFrame_bounded hm frame nofun
  | budget + 1 => (lawfulScopes_bounded (budget + 1)).callWith fun env b frame _ _ hm => by
    refine keeps_inFrame_bounded hm frame fun rest hrest _ hn => ?_
    cases hrest
    exact (lawful_bounded budget env).block (applies_bounded budget) b b.hasShape_any hn

/-- No node uses up a budget that the limit does not exceed. -/
theorem keeps_runNode_bounded {budget : Nat} {m : Machine} (hm : m.Within budget)
    (env : ScopeId) (node : Node) :
    (bounded budget).Keeps m (runNode (applyFunction budget) env node) (bounded budget).Good := by
  have hlaw := lawful_bounded budget env
  have ha := applies_bounded budget
  cases node with
  | program p => exact hlaw.program ha (fun _ _ _ => trivial) (bodyHasShape_any p.statements) hm
  | statement s => exact hlaw.stmt ha s s.hasShape_any hm
  | expression e => exact hlaw.expr ha e e.hasShape_any hm
  | missing => exact hlaw.throw hm nofun

end Discipline

/-- With a limit on nested calls, the budget is never used up. -/
theorem Machine.eval_ne_exhausted {m : Machine} {limit : Nat} (h : m.calls.limit = some limit)
    (env : ScopeId) (node : Node) : (m.eval env node).1 ≠ .exhausted := by
  have hm : m.Within m.callBudget := by
    refine ⟨limit, h, ?_⟩
    unfold callBudget
    rw [h]
    show limit ≤ m.calls.depth + (limit - m.calls.depth)
    omega
  unfold eval
  cases Discipline.keeps_runNode_bounded hm env node with
  | ok v n run _ _ _ =>
    rw [run]
    exact nofun
  | error u n run _ _ unwinds =>
    rw [run]
    cases u with
    | exhausted => exact absurd rfl unwinds
    | _ => exact nofun

end Ember
