import Ember.Proofs.Eval.Coupling

/-!
# Evaluation does not look at what was printed

Lines go to the printer and nothing comes back. So a machine with another printer goes in step with
the machine (`Coupling.printing`), and it makes no difference whether the printer is changed before
or after an evaluation (`Eval.stmts_reprint`, `Machine.evalWith_reprint`), as long as the change
lets lines be printed as before. So text that is there already stays in front of what is printed
(`Printer.behind`).

And an evaluation takes the call stack and the sort of printer back to what they were, whichever way
it ends (`Machine.evalWith_restores`).
-/

namespace Ember

/-! ## Changes of the printer -/

/-- The printer with text in front of what is kept. -/
def Printer.behind (front : String) : Printer → Printer
  | silent => silent
  | buffer text => buffer (front ++ text)

/-- Clearing forgets the line that was printed. -/
theorem Printer.clear_println (line : String) (p : Printer) : (p.println line).clear = p.clear := by
  cases p <;> rfl

/-- The machine with another printer. -/
def Machine.reprint (g : Printer → Printer) (m : Machine) : Machine :=
  { m with printer := g m.printer }

/-- A result with another printer. -/
def reprintResult {α : Type} (g : Printer → Printer) :
    EStateM.Result Unwind Machine α → EStateM.Result Unwind Machine α
  | .ok a m => .ok a (m.reprint g)
  | .error u m => .error u (m.reprint g)

namespace Eval

variable {α β : Type} {g : Printer → Printer}

/-- The printer may be changed before or after the step. -/
def Overlooks (g : Printer → Printer) (r : Eval α) : Prop :=
  ∀ m : Machine, r (m.reprint g) = reprintResult g (r m)

namespace Overlooks

theorem pure (a : α) : Overlooks g (Pure.pure a) := fun _ => rfl

theorem throw (u : Unwind) : Overlooks g (MonadExcept.throw u : Eval α) := fun _ => rfl

/-- One step after another. -/
theorem bind {r : Eval α} {k : α → Eval β} (hr : Overlooks g r) (hk : ∀ a, Overlooks g (k a)) :
    Overlooks g (r >>= k) := by
  intro m
  show EStateM.bind r k (m.reprint g) = reprintResult g (EStateM.bind r k m)
  unfold EStateM.bind
  rw [hr m]
  cases r m with
  | ok a n => exact hk a n
  | error u n => rfl

/-- A step on the heap alone does not look at the printer. -/
theorem onHeap (change : Heap → α × Heap) : Overlooks g (Eval.onHeap change) := fun _ => rfl

theorem allocate (make : Identity → Value) : Overlooks g (Eval.allocate make) :=
  (onHeap _).bind fun _ => .pure _

theorem bindName (env : ScopeId) (name : String) (v : Value) :
    Overlooks g (Eval.bindName env name v) := fun _ => rfl

end Overlooks

/-- Whether lines are printed before or after the change makes no difference. -/
def LetsPrint (g : Printer → Printer) : Prop :=
  ∀ (line : String) (p : Printer), g (p.println line) = (g p).println line

/-- Lines come behind what stands in front. -/
theorem letsPrint_behind (front : String) : LetsPrint (.behind front) := by
  intro line p
  cases p with
  | silent => rfl
  | buffer text => simp [Printer.println, Printer.behind, String.append_assoc]

end Eval

/-! ## Two printers side by side -/

open Eval

variable {g : Printer → Printer}

namespace Coupling

/-- The second machine is the first one with another printer. -/
def printing (g : Printer → Printer) : Coupling := .ofMap id (.reprint g)

/-- Values are the same for another printer. -/
theorem same_printing_iff {v w : Value} : (printing g).Same v w ↔ v = w := by
  rw [printing, same_ofMap_iff, v.mapTokens_id, eq_comm]

/-- A machine with another printer has the same heap and the same calls. -/
theorem lawful_printing : (printing g).Lawful where
  lookup := by
    rintro m _ i _ name rfl rfl -
    show Option.Rel _ (m.heap.lookup i name.name) (m.heap.lookup i name.name)
    cases m.heap.lookup i name.name with
    | none => exact .none
    | some v => exact .some (same_printing_iff.mpr rfl)
  set := by
    rintro m _ i _ name v w rfl rfl - hv
    obtain rfl := same_printing_iff.mp hv
    rfl
  identity := by
    rintro m _ rfl
    exact ⟨rfl, rfl⟩
  newScope := by
    rintro m _ i _ rfl rfl
    exact ⟨rfl, rfl⟩
  pushFrame := by
    rintro m _ f f' rfl hframe
    rw [hframe.eq rfl]
    show Agree _ (m.calls.push f') (m.calls.push f')
    cases m.calls.push f' with
    | ok calls => exact .ok rfl
    | error fault => exact .error fault
  popFrame := by
    rintro m _ rfl
    rfl

/-- Every line is printed by both, and the change may be made before or after. -/
theorem prints_printing (hg : LetsPrint g) : (printing g).Prints := by
  rintro m _ line rfl
  exact congrArg (Machine.mk m.heap m.calls) (hg line m.printer).symm

/-- What goes in step with itself is not concerned with the printer. -/
theorem InStep.overlooks {r : Eval Value} (h : (printing g).InStep (printing g).Same r r) :
    Overlooks g r := by
  intro m
  have hresults := h (rfl : (printing g).Rel m (m.reprint g))
  generalize r m = x, r (m.reprint g) = y at hresults
  cases hresults with
  | ok hv hn => rw [same_printing_iff.mp hv, reprintResult, hn]
  | error hu hn =>
    cases hu with
    | returning hv => rw [same_printing_iff.mp hv, reprintResult, hn]
    | error _ | fault _ | exhausted => rw [reprintResult, hn]

end Coupling

namespace Eval

/-- No builtin but `puts` has anything to do with the printer. -/
theorem overlooks_run {b : Builtin} (hg : b = .puts → LetsPrint g) (args : List Value) :
    Overlooks g (b.run args) := by
  have hargs : List.Forall₂ (Coupling.printing g).Same args args :=
    List.forall₂_same.mpr fun v _ => Coupling.same_printing_iff.mpr rfl
  exact (Coupling.lawful_printing.run (fun hb => Coupling.prints_printing (hg hb)) hargs).overlooks

/-- Statements are evaluated without a look at the printer. -/
theorem stmts_reprint (hg : LetsPrint g) (budget : Nat) (env : ScopeId) (ss : List Stmt)
    (last : Value) (m : Machine) : stmts (applyFunction budget) env ss last (m.reprint g) =
      reprintResult g (stmts (applyFunction budget) env ss last m) := by
  have hcalls := Coupling.lawful_printing.applyFunction (Coupling.prints_printing hg) budget
  have hlast : (Coupling.printing g).Same last last := Coupling.same_printing_iff.mpr rfl
  have hstmts := Coupling.lawful_printing.stmts hcalls (i := env) rfl ss (bodyHasShape_any ss) hlast
  have htokens : mapTokensBody (Coupling.printing g).token ss = ss := mapTokensBody_id ss
  rw [htokens] at hstmts
  exact hstmts.overlooks m

end Eval

/-- It makes no difference whether the printer is changed before an evaluation or after it. -/
theorem Machine.evalWith_reprint (hg : LetsPrint g) {m n : Machine} {env : ScopeId} {node : Node}
    {budget : Nat} {o : Outcome} (h : m.evalWith budget env node = (o, n)) :
    (m.reprint g).evalWith budget env node = (o, n.reprint g) := by
  have heval := Coupling.evalWith_ofMap Coupling.lawful_printing (Coupling.prints_printing hg)
    (.of_hasShape rfl node.hasShape_any) m budget env
  rwa [h, o.mapTokens_id] at heval

/-! ## What an evaluation leaves as it was -/

/-- The call stack stays what it is, and so does the printer but for the text that it keeps. -/
def Discipline.restored : Discipline where
  shape := .any
  Inv _ := True
  Step m n := n.calls = m.calls ∧ n.printer.clear = m.printer.clear
  Good _ _ := True
  Unwinds _ _ := True

namespace Discipline

/-- Outside calls no step touches the stack, and to the printer lines are only added. -/
theorem lawful_restored (env : ScopeId) : restored.Lawful env where
  refl _ := ⟨rfl, rfl⟩
  trans h h' := ⟨h'.1.trans h.1, h'.2.trans h.2⟩
  mono _ _ := trivial
  plain _ _ _ := trivial
  element _ _ := trivial
  entry _ _ := trivial
  lookup _ _ := trivial
  bindName _ _ _ := .ok () _ rfl trivial ⟨rfl, rfl⟩ trivial
  array _ _ := .ok _ _ rfl trivial ⟨rfl, rfl⟩ trivial
  hash _ _ := .ok _ _ rfl trivial ⟨rfl, rfl⟩ trivial
  function _ _ := .ok _ _ rfl trivial ⟨rfl, rfl⟩ trivial
  println line _ := .ok () _ rfl trivial ⟨rfl, Printer.clear_println line _⟩ trivial
  error _ _ := trivial
  returning _ := trivial
  placeholder _ _ _ := trivial
  unnamed _ _ _ _ := trivial

theorem lawfulCalls_restored : restored.LawfulCalls where
  lawful := lawful_restored
  literal _ := FunctionLiteral.hasShape_any _
  newScope _ _ := .ok _ _ rfl trivial ⟨rfl, rfl⟩ trivial
  inFrame frame _ hm hbody := by
    refine keeps_inFrame hm hbody (fun f _ => ⟨⟨rfl, rfl⟩, trivial⟩) ?_ (fun _ _ h => h)
      (fun _ _ h => h) fun _ _ h => h
    intro calls hpush
    refine ⟨trivial, fun n _ hstep => ⟨trivial, ?_, hstep.2⟩⟩
    show n.calls.pop = _
    rw [hstep.1, CallStack.pop_of_push hpush]
  exhausted _ := trivial

end Discipline

/-- Every evaluation of a program takes the call stack back to where it was. -/
theorem Machine.evalWith_restores (m : Machine) (budget : Nat) (env : ScopeId) (p : Program) :
    (m.evalWith budget env (.program p)).2.calls = m.calls ∧
      (m.evalWith budget env (.program p)).2.printer.clear = m.printer.clear := by
  have ha := Discipline.lawfulCalls_restored.applyFunction budget
  have hkeeps := (Discipline.lawful_restored env).program ha (fun _ _ _ => trivial)
    (bodyHasShape_any p.statements) (m := m) trivial
  cases hkeeps with
  | ok v n run _ step _ =>
    simp only [evalWith, runNode, run]
    exact step
  | error u n run _ step _ =>
    simp only [evalWith, runNode, run]
    cases u <;> exact step

end Ember
