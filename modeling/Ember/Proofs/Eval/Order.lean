import Ember.Proofs.Eval.Stepwise

/-!
# The order of evaluation

Programs, blocks, array and hash literals, binary operators, element accesses and calls have
children that are evaluated one after the other (`Construct.children`). The key of a hash literal is
asked for whether it can be one before its value is evaluated. A callee is not asked whether it can
be called until the arguments have been evaluated, so that is no part of evaluating the children.

Evaluating a construct is evaluating its children in order and then doing something with their
values (`Eval.construct_eq`). So the first child that unwinds decides everything: what stands behind
it is not looked at (`Construct.later_irrelevant`).
-/

namespace Ember

/-- What is evaluated as a part of something larger. -/
inductive Child where
  | expr (e : Expr)
  /-- An expression whose value has to make a key. -/
  | key (e : Expr)
  | stmt (s : Stmt)

/-- Something with children that are evaluated in order. -/
inductive Construct where
  | program (p : Program)
  | block (body : Block)
  | array (token : Token) (elements : List Expr)
  | hash (token : Token) (pairs : List (Expr × Expr))
  | binary (token : Token) (left : Expr) (op : BinaryOp) (right : Expr)
  | index (token : Token) (left : Expr) (index : Expr)
  | call (token : Token) (callee : Expr) (arguments : List Expr)

namespace Construct

/-- The children in the order of evaluation. -/
def children : Construct → List Child
  | program p => p.statements.map .stmt
  | block body => body.statements.map .stmt
  | array _ elements => elements.map .expr
  | hash _ pairs => pairs.flatMap fun p => [.key p.1, .expr p.2]
  | binary _ left _ right => [.expr left, .expr right]
  | index _ left i => [.expr left, .expr i]
  | call _ callee arguments => .expr callee :: arguments.map .expr

/-- The construct as a node. -/
def node : Construct → Node
  | program p => .program p
  | block body => .statement (.block body)
  | array token elements => .expression (.array token elements)
  | hash token pairs => .expression (.hash token pairs)
  | binary token left op right => .expression (.binary token left op right)
  | index token left i => .expression (.index token left i)
  | call token callee arguments => .expression (.call token callee arguments)

/-- Whether this is a program, which ends a `return` among its children. -/
def isProgram : Construct → Bool
  | program _ => true
  | _ => false

end Construct

/-! ## Evaluation of the children -/

namespace Eval

variable (apply : Apply) (env : ScopeId)

/-- Evaluates a child. -/
def child : Child → Eval Value
  | .expr e => expr apply env e
  | .key e => do
    let k ← expr apply env e
    match k.hashKey? with
    | none => throw (.error (.badHashKey k.type))
    | some _ => pure k
  | .stmt s => stmt apply env s

/-- Evaluates children in order. -/
def children : List Child → Eval (List Value)
  | [] => pure []
  | c :: cs => do
    let v ← child apply env c
    let vs ← children cs
    pure (v :: vs)

/-- Evaluates a construct; a program does not end a `return` here. -/
def construct : Construct → Eval Value
  | .program p => stmts apply env p.statements .null
  | .block body => block apply env body
  | .array token elements => expr apply env (.array token elements)
  | .hash token pairs => expr apply env (.hash token pairs)
  | .binary token left op right => expr apply env (.binary token left op right)
  | .index token left i => expr apply env (.index token left i)
  | .call token callee arguments => expr apply env (.call token callee arguments)

/-- The entries that keys and values make, one after the other. -/
def entriesOf : List Value → HashEntries → HashEntries
  | k :: v :: vs, entries =>
    match k.hashKey? with
    | some key => entriesOf vs (OrderedMap.insert key (k, v) entries)
    | none => entriesOf vs entries
  | _, entries => entries

/-- What a construct does with the values of its children. -/
def finish : Construct → List Value → Eval Value
  | .program _, vs | .block _, vs => pure (vs.getLast?.getD .null)
  | .array _ _, vs => allocate (.array · vs)
  | .hash _ _, vs => allocate (.hash · (entriesOf vs []))
  | .binary _ _ op _, [a, b] => ofExcept (evalBinary a op b)
  | .index _ _ _, [a, i] => ofExcept (evalIndex a i)
  | .call token callee _, f :: args =>
    applyValue apply f ⟨calleeName callee, token.position⟩ args
  | _, _ => pure .null

variable {apply env}

theorem exprs_eq_children (es : List Expr) :
    exprs apply env es = children apply env (es.map .expr) := by
  induction es with
  | nil => rfl
  | cons e es ih => rw [exprs, ih]; rfl

theorem stmts_eq_children (ss : List Stmt) (last : Value) : stmts apply env ss last =
    children apply env (ss.map .stmt) >>= fun vs => pure (vs.getLast?.getD last) := by
  induction ss generalizing last with
  | nil => rfl
  | cons s ss ih =>
    rw [stmts, List.map_cons, children, child]
    simp only [bind_assoc, pure_bind, ih]
    simp [List.getLast?_cons]

theorem pairs_eq_children (ps : List (Expr × Expr)) (entries : HashEntries) :
    pairs apply env ps entries =
      children apply env (ps.flatMap fun p => [.key p.1, .expr p.2]) >>= fun vs =>
        pure (entriesOf vs entries) := by
  induction ps generalizing entries with
  | nil => rfl
  | cons p ps ih =>
    obtain ⟨key, value⟩ := p
    rw [pairs, List.flatMap_cons]
    simp only [List.cons_append, List.nil_append, children, child, bind_assoc, pure_bind]
    refine bind_congr fun k => ?_
    cases hkey : k.hashKey? with
    | none => rfl
    | some hashKey => simp only [pure_bind, ih, entriesOf, hkey]

/-- Evaluating a construct is evaluating its children in order and then doing the rest. -/
theorem construct_eq (x : Construct) :
    construct apply env x = children apply env x.children >>= finish apply x := by
  cases x with
  | program p => exact stmts_eq_children p.statements .null
  | block body =>
    obtain ⟨token, statements⟩ := body
    exact stmts_eq_children statements .null
  | array token elements =>
    rw [construct, expr, exprs_eq_children]
    rfl
  | hash token ps =>
    rw [construct, expr, pairs_eq_children, bind_assoc]
    simp only [pure_bind]
    rfl
  | binary token left op right =>
    rw [construct, expr]
    simp only [Construct.children, children, child, bind_assoc, pure_bind, finish]
  | index token left i =>
    rw [construct, expr]
    simp only [Construct.children, children, child, bind_assoc, pure_bind, finish]
  | call token callee arguments =>
    rw [construct, expr, exprs_eq_children]
    simp only [Construct.children, children, child, bind_assoc, pure_bind, finish]

/-- From the first child that unwinds on, no child is evaluated. -/
theorem children_of_unwind {before : List Child} {c : Child} {m n l : Machine} {vs : List Value}
    {u : Unwind} (hbefore : children apply env before m = .ok vs n)
    (hc : child apply env c n = .error u l) (after : List Child) :
    children apply env (before ++ c :: after) m = .error u l := by
  induction before generalizing m vs with
  | nil =>
    cases hbefore
    exact bind_of_error hc _
  | cons b before ih =>
    obtain ⟨v, k, hb, hrest⟩ := of_bind_ok hbefore
    obtain ⟨vs, k', hvs, hend⟩ := of_bind_ok hrest
    cases hend
    rw [List.cons_append, children, bind_of_ok hb]
    exact bind_of_error (ih hvs) _

/-- Children unwind exactly if one of them does after those before it have given values. -/
theorem exists_of_children_unwind {cs : List Child} {m l : Machine} {u : Unwind}
    (h : children apply env cs m = .error u l) :
    ∃ before c after vs n, cs = before ++ c :: after ∧ children apply env before m = .ok vs n ∧
      child apply env c n = .error u l := by
  induction cs generalizing m with
  | nil => cases h
  | cons c cs ih =>
    cases hc : child apply env c m with
    | error u' l' =>
      cases (bind_of_error hc _).symm.trans h
      exact ⟨[], c, cs, [], m, rfl, rfl, hc⟩
    | ok v n =>
      have hcs : children apply env cs n = .error u l := by
        rw [children, bind_of_ok hc] at h
        cases hrest : children apply env cs n with
        | ok vs k => cases (bind_of_ok hrest _).symm.trans h
        | error u' l' => rw [← h, bind_of_error hrest]
      obtain ⟨before, d, after, vs, k, rfl, hbefore, hd⟩ := ih hcs
      refine ⟨c :: before, d, after, v :: vs, k, rfl, ?_, hd⟩
      rw [children, bind_of_ok hc]
      exact bind_of_ok hbefore _

/-- All children give values, which the construct goes on with, or there is a first that unwinds. -/
theorem construct_cases (apply : Apply) (env : ScopeId) (x : Construct) (m : Machine) :
    (∃ vs n, children apply env x.children m = .ok vs n ∧
        construct apply env x m = finish apply x vs n) ∨
      ∃ before c after vs n u l, x.children = before ++ c :: after ∧
        children apply env before m = .ok vs n ∧ child apply env c n = .error u l := by
  cases hchildren : children apply env x.children m with
  | ok vs n => exact .inl ⟨vs, n, rfl, by rw [construct_eq, bind_of_ok hchildren]⟩
  | error u l =>
    obtain ⟨before, c, after, vs, n, hx, hbefore, hc⟩ := exists_of_children_unwind hchildren
    exact .inr ⟨before, c, after, vs, n, u, l, hx, hbefore, hc⟩

/-- The first child that unwinds decides how the construct does. -/
theorem construct_of_unwind {x : Construct} {before after : List Child} {c : Child}
    {m n l : Machine} {vs : List Value} {u : Unwind} (hx : x.children = before ++ c :: after)
    (hbefore : children apply env before m = .ok vs n) (hc : child apply env c n = .error u l) :
    construct apply env x m = .error u l := by
  rw [construct_eq, hx]
  exact bind_of_error (children_of_unwind hbefore hc after) _

end Eval

/-! ## Boundaries -/

/-- What becomes of an unwinding construct at the boundary: a program ends a `return`. -/
def Construct.ended (x : Construct) (u : Unwind) (l : Machine) :
    EStateM.Result Unwind Machine Value :=
  match u with
  | .returning v => if x.isProgram then .ok v l else .error u l
  | u => .error u l

theorem runNode_of_unwind {apply : Apply} {env : ScopeId} {x : Construct} {m l : Machine}
    {u : Unwind} (h : Eval.construct apply env x m = .error u l) :
    runNode apply env x.node m = x.ended u l := by
  cases x with
  | program p =>
    by_cases hu : ∃ v, u = .returning v
    · obtain ⟨v, rfl⟩ := hu
      exact runProgram_of_returning h
    · have hne : ∀ v, u ≠ .returning v := not_exists.mp hu
      rw [Construct.node, runNode, runProgram_of_error h hne]
      cases u with
      | returning v => exact absurd rfl (hne v)
      | _ => rfl
  | _ =>
    refine h.trans ?_
    cases u <;> rfl

namespace Construct

variable {x y : Construct}

theorem ended_congr (h : x.isProgram = y.isProgram) (u : Unwind) (l : Machine) :
    x.ended u l = y.ended u l := by
  cases u with
  | returning v => rw [ended, ended, h]
  | _ => rfl

/-- The machine at the boundary is the one that unwinding has left. -/
theorem ofResult_ended (x : Construct) {u : Unwind} (hu : u ≠ .exhausted) (l : Machine) :
    (Outcome.ofResult (x.ended u l)).2 = l ∧ (Outcome.ofResult (x.ended u l)).1 ≠ .exhausted := by
  cases u with
  | exhausted => exact absurd rfl hu
  | returning v =>
    rw [ended]
    cases x.isProgram <;> exact ⟨rfl, nofun⟩
  | error e => exact ⟨rfl, nofun⟩
  | fault f => exact ⟨rfl, nofun⟩

/--
Two constructs have the same children up to one that unwinds, after those before it have given
values. Then both unwind in the same way and leave the same machine, the one that this child left;
so heap, call stack and printed text are the same too, whatever stands behind the child. At the
boundary, where a program ends a `return`, both end in the same way if both or neither are programs;
in a reached heap that is how their evaluations finish. For every construct, either all children
give values, and it goes on with them, or there is such a child.
-/
theorem later_irrelevant {before after after' : List Child} {c : Child}
    (hx : x.children = before ++ c :: after) (hy : y.children = before ++ c :: after')
    {budget : Nat} {env : ScopeId} {m n l : Machine} {vs : List Value} {u : Unwind}
    (hbefore : Eval.children (applyFunction budget) env before m = .ok vs n)
    (hc : Eval.child (applyFunction budget) env c n = .error u l) (hu : u ≠ .exhausted) :
    Eval.construct (applyFunction budget) env x m = .error u l ∧
      Eval.construct (applyFunction budget) env y m = .error u l ∧
      (x.isProgram = y.isProgram → ∃ o,
        m.evalWith budget env x.node = (o, l) ∧ m.evalWith budget env y.node = (o, l) ∧
        (m.heap.Reached → m.heap.Has env →
          m.Finishes env x.node o l ∧ m.Finishes env y.node o l)) ∧
      ∀ (z : Construct) (k : Machine),
        (∃ vs k', Eval.children (applyFunction budget) env z.children k = .ok vs k' ∧
          Eval.construct (applyFunction budget) env z k =
            Eval.finish (applyFunction budget) z vs k') ∨
        ∃ before c after vs k' u l, z.children = before ++ c :: after ∧
          Eval.children (applyFunction budget) env before k = .ok vs k' ∧
          Eval.child (applyFunction budget) env c k' = .error u l := by
  have hunwinds := Eval.construct_of_unwind hx hbefore hc
  have hunwinds' := Eval.construct_of_unwind hy hbefore hc
  refine ⟨hunwinds, hunwinds', fun hsame => ?_, Eval.construct_cases _ env⟩
  obtain ⟨hl, hends⟩ := x.ofResult_ended hu l
  -- What ends the whole is made of how the child ended, and no later child comes into it.
  have hevalx : m.evalWith budget env x.node = ((Outcome.ofResult (x.ended u l)).1, l) := by
    rw [Machine.evalWith, runNode_of_unwind hunwinds]
    exact Prod.ext rfl hl
  have hevaly : m.evalWith budget env y.node = ((Outcome.ofResult (x.ended u l)).1, l) := by
    rw [Machine.evalWith, runNode_of_unwind hunwinds', ← ended_congr hsame]
    exact Prod.ext rfl hl
  exact ⟨_, hevalx, hevaly, fun hm henv =>
    ⟨Machine.finishes_of_evalWith hm.closed henv hevalx hends,
      Machine.finishes_of_evalWith hm.closed henv hevaly hends⟩⟩

/-- An array is refused as a key, whether its value could be evaluated or not. -/
theorem later_irrelevant_key :
    let t := Token.endOfInput
    let pair : Expr × Expr := (.integer t 1, .integer t 2)
    let x : Construct := .hash t [pair, (.array t [], .missing t)]
    let y : Construct := .hash t [pair, (.array t [], .integer t 3), (.missing t, .missing t)]
    let m : Machine := ⟨(Heap.empty.newScope none).2, .empty none, .fresh⟩
    let o : Outcome := .value (.error (RuntimeError.badHashKey .array).message)
    ∃ l, m.Finishes ⟨0⟩ x.node o l ∧ m.Finishes ⟨0⟩ y.node o l := by
  intro t pair x y m o
  have hreached : m.heap.Reached := .newScope nofun .empty
  have hbefore : Eval.children (applyFunction 0) ⟨0⟩ [.key (.integer t 1), .expr (.integer t 2)] m =
      .ok [.integer 1, .integer 2] m := rfl
  have hkey : Eval.child (applyFunction 0) ⟨0⟩ (.key (.array t [])) m =
      .error (.error (.badHashKey .array)) { m with heap := m.heap.freshIdentity.2 } := rfl
  obtain ⟨-, -, hends, -⟩ := later_irrelevant (x := x) (y := y) rfl rfl hbefore hkey nofun
  obtain ⟨o', hx, -, hfinishes⟩ := hends rfl
  have ho : o' = o := (congrArg Prod.fst hx).symm
  exact ⟨_, ho ▸ hfinishes hreached (by decide)⟩

end Construct

end Ember
