import Mathlib.Logic.Function.Iterate
import Ember.Eval.Interpreter

/-!
# Moments of an evaluation

An evaluation taken apart into steps. A `Moment` is what is done next, what is left to do after that
in the body under way and in the callers of that body, and the machine. `Moment.next` takes one
step: it opens an expression or a statement, reads or changes the machine once, or passes a value on
to what waits for it.

Nothing bounds the number of steps, and there is no budget. A lookup visits one scope in each step
and goes on along the link to the scope around it, wherever that leads. So an evaluation that ends
does so after finitely many steps (`Machine.Finishes`), and what holds at every moment of it can be
said. That these steps are those of the interpreter is shown apart from this.
-/

namespace Ember

/-! ## What there is to do -/

/-- What values are collected for. -/
inductive Purpose where
  | array
  | call (callee : Value) (frame : CallFrame)

/-- A part of a tree that is to be evaluated. -/
inductive Task where
  | expr (e : Expr)
  /-- Expressions whose values are collected behind those that are there. -/
  | collect (purpose : Purpose) (done : List Value) (todo : List Expr)
  | pairs (todo : List (Expr × Expr)) (entries : HashEntries)
  /-- Statements; `last` is the value if there are none. -/
  | stmts (todo : List Stmt) (last : Value)
  | stmt (s : Stmt)

/-- Something that reads or changes the machine. -/
inductive Action where
  | array (elements : List Value)
  | hash (entries : HashEntries)
  | function (literal : FunctionLiteral)
  | assign (name : String) (value : Value)
  | run (b : Builtin) (args : List Value)
  /-- A name is looked up in one scope. -/
  | lookup (name : String) (scope : ScopeId)
  | call (literal : FunctionLiteral) (scope : ScopeId) (frame : CallFrame) (args : List Value)
  /-- The next parameter is bound in the scope of a call. -/
  | bind (scope : ScopeId) (parameters : List Identifier) (args : List Value) (frame : CallFrame)
      (body : Block)

/-- What is done next. -/
inductive Focus where
  | task (t : Task)
  | act (p : Action)
  /-- A frame is pushed for the body of a call. -/
  | enter (scope : ScopeId) (frame : CallFrame) (body : Block)
  /-- What was evaluated gave a value or unwinds. -/
  | ended (r : Except Unwind Value)

namespace Focus

/-- There is a value. -/
abbrev value (v : Value) : Focus := .ended (.ok v)

/-- Evaluation unwinds. -/
abbrev unwind (u : Unwind) : Focus := .ended (.error u)

end Focus

/-- What waits for a value. -/
inductive Pending where
  | collect (purpose : Purpose) (done : List Value) (todo : List Expr)
  /-- The key of a pair is under way. -/
  | key (value : Expr) (todo : List (Expr × Expr)) (entries : HashEntries)
  /-- The value of a pair is under way. -/
  | entry (hashKey : HashKey) (key : Value) (todo : List (Expr × Expr)) (entries : HashEntries)
  | unary (op : UnaryOp)
  | left (op : BinaryOp) (right : Expr)
  | right (left : Value) (op : BinaryOp)
  | condition (consequence : Block) (alternative : Option Block)
  | callee (frame : CallFrame) (arguments : List Expr)
  | indexed (index : Expr)
  | index (left : Value)
  | binding (name : String)
  | returning
  | stmts (todo : List Stmt)
  /-- The end of a program. -/
  | program

/-- What is done with the values once they are collected. -/
def Purpose.finish (values : List Value) : Purpose → Focus
  | .array => .act (.array values)
  | .call (.function _ literal scope) frame => .act (.call literal scope frame values)
  | .call (.builtin b) _ => .act (.run b values)
  | .call v _ => .unwind (.error (.notCallable v.type))

/-- A `return` that ends here becomes the value of what ends. -/
def atBoundary : Except Unwind Value → Except Unwind Value
  | .error (.returning v) => .ok v
  | r => r

/-- How an expression is begun in a scope, and what waits for its first part. -/
def Expr.first (env : ScopeId) : Expr → Focus × List Pending
  | .identifier name =>
    if name.isMissing then (.unwind (.fault (.placeholder .identifier)), [])
    else (.act (.lookup name.name env), [])
  | .integer _ n => (.value (.integer n), [])
  | .boolean _ b => (.value (.boolean b), [])
  | .string _ s => (.value (.string s), [])
  | .array _ elements => (.task (.collect .array [] elements), [])
  | .hash _ pairs => (.task (.pairs pairs []), [])
  | .unary _ op right => (.task (.expr right), [.unary op])
  | .binary _ left op right => (.task (.expr left), [.left op right])
  | .conditional _ condition consequence alternative =>
    (.task (.expr condition), [.condition consequence alternative])
  | .function literal => (.act (.function literal), [])
  | .call token callee arguments =>
    (.task (.expr callee), [.callee ⟨Eval.calleeName callee, token.position⟩ arguments])
  | .index _ left i => (.task (.expr left), [.indexed i])
  | .missing _ => (.unwind (.fault (.placeholder .expression)), [])

/-- How a statement is begun, and what waits for its expression. -/
def Stmt.first : Stmt → Focus × List Pending
  | .letBinding _ name value =>
    if name.isMissing then (.unwind (.fault (.placeholder .identifier)), [])
    else (.task (.expr value), [.binding name.name])
  | .returning _ value => (.task (.expr value), [.returning])
  | .expression _ e => (.task (.expr e), [])
  | .block body => (.task (.stmts body.statements .null), [])
  | .missing _ => (.unwind (.fault (.placeholder .statement)), [])

/-- How a part of a tree is begun. -/
def Task.first (env : ScopeId) : Task → Focus × List Pending
  | .expr e => e.first env
  | .collect purpose done [] => (purpose.finish done, [])
  | .collect purpose done (e :: es) => (.task (.expr e), [.collect purpose done es])
  | .pairs [] entries => (.act (.hash entries), [])
  | .pairs ((key, value) :: ps) entries => (.task (.expr key), [.key value ps entries])
  | .stmts [] last => (.value last, [])
  | .stmts (s :: ss) _ => (.task (.stmt s), [.stmts ss])
  | .stmt s => s.first

/-- What is done with the answer of an operator. -/
def Focus.ofExcept : Except RuntimeError Value → Focus
  | .ok v => .value v
  | .error e => .unwind (.error e)

/-- The block that a condition chooses. -/
def Focus.branch (condition : Value) (consequence : Block) (alternative : Option Block) : Focus :=
  if condition.isTruthy then .task (.stmts consequence.statements .null)
  else
    match alternative with
    | none => .value .null
    | some alternative => .task (.stmts alternative.statements .null)

/-- What waits for a value goes on with it. -/
def Pending.resume (v : Value) : Pending → Focus × List Pending
  | .collect purpose done todo => (.task (.collect purpose (done ++ [v]) todo), [])
  | .key value todo entries =>
    match v.hashKey? with
    | none => (.unwind (.error (.badHashKey v.type)), [])
    | some hashKey => (.task (.expr value), [.entry hashKey v todo entries])
  | .entry hashKey k todo entries =>
    (.task (.pairs todo (OrderedMap.insert hashKey (k, v) entries)), [])
  | .unary op => (.ofExcept (evalUnary op v), [])
  | .left op e => (.task (.expr e), [.right v op])
  | .right a op => (.ofExcept (evalBinary a op v), [])
  | .condition consequence alternative => (.branch v consequence alternative, [])
  | .callee frame arguments => (.task (.collect (.call v frame) [] arguments), [])
  | .indexed i => (.task (.expr i), [.index v])
  | .index a => (.ofExcept (evalIndex a v), [])
  | .binding name => (.act (.assign name v), [])
  | .returning => (.unwind (.returning v), [])
  | .stmts todo => (.task (.stmts todo v), [])
  | .program => (.value v, [])

/-- What waits for a value is given up when there is none; a program ends a `return`. -/
def Pending.unwind (u : Unwind) : Pending → Focus
  | .program => .ended (atBoundary (.error u))
  | _ => .unwind u

/-! ## The machine -/

namespace Action

/-- What comes of a name that no scope binds. -/
def unbound (name : String) : Focus :=
  match Builtin.ofName? name with
  | some b => .value (.builtin b)
  | none => .unwind (.error (.unbound name))

/-- A name is found in a scope or looked up in the one around it. -/
def find (h : Heap) (name : String) (scope : ScopeId) : Focus :=
  match h.scope? scope with
  | none => unbound name
  | some s =>
    match OrderedMap.get? s.bindings name with
    | some v => .value v
    | none =>
      match s.outer with
      | some outer => .act (.lookup name outer)
      | none => unbound name

/-- What an action does to the machine, and what is done next. -/
def effect (env : ScopeId) : Action → Eval Focus
  | array elements => return .value (← Eval.allocate (.array · elements))
  | hash entries => return .value (← Eval.allocate (.hash · entries))
  | function literal => return .value (← Eval.allocate (.function · literal env))
  | assign name value => do
    Eval.bindName env name value
    return .value .null
  | run b args => return .value (← b.run args)
  | lookup name scope => return find (← get).heap name scope
  | call literal scope frame args =>
    if literal.arity ≠ args.length then
      throw (.error (.functionArity literal.arity args.length))
    else do
      let inner ← Eval.onHeap (·.newScope (some scope))
      return .act (.bind inner literal.parameters args frame literal.body)
  | bind scope (p :: ps) (v :: vs) frame body =>
    if p.isMissing then throw (.fault (.placeholder .identifier))
    else do
      Eval.bindName scope p.name v
      return .act (.bind scope ps vs frame body)
  | bind scope _ _ frame body => return .enter scope frame body

end Action

/-- A body that waits for a call that it made: its scope, and what is left to do in it. -/
structure Activation where
  env : ScopeId
  pending : List Pending

/-- A moment of an evaluation. -/
structure Moment where
  focus : Focus
  /-- The scope of the body under way. -/
  env : ScopeId
  /-- What is left to do in that body, the next first. -/
  pending : List Pending
  /-- The bodies that wait for it, innermost first. -/
  callers : List Activation
  machine : Machine

namespace Moment

/-- The moment after an action. -/
def perform (p : Action) (a : Moment) : Moment :=
  match p.effect a.env a.machine with
  | .ok focus machine => { a with focus, machine }
  | .error u machine => { a with focus := .unwind u, machine }

/-- A frame is pushed and the body begun, unless the frame is refused. -/
def enter (scope : ScopeId) (frame : CallFrame) (body : Block) (a : Moment) : Moment :=
  match a.machine.calls.push frame with
  | .error f => { a with focus := .unwind (.fault f) }
  | .ok calls =>
    ⟨.task (.stmts body.statements .null), scope, [], ⟨a.env, a.pending⟩ :: a.callers,
      { a.machine with calls }⟩

/-- What waits for an answer is given it. -/
def resume (r : Except Unwind Value) (p : Pending) (ps : List Pending) (a : Moment) : Moment :=
  match r with
  | .ok v => { a with focus := (p.resume v).1, pending := (p.resume v).2 ++ ps }
  | .error u => { a with focus := p.unwind u, pending := ps }

/-- A body is over: its frame is popped and its caller goes on. -/
def leave (r : Except Unwind Value) (a : Moment) : Moment :=
  match a.callers with
  | [] => a
  | c :: cs => ⟨.ended (atBoundary r), c.env, c.pending, cs, Eval.popFrame a.machine⟩

/-- One step. What is finished stays as it is. -/
def next (a : Moment) : Moment :=
  match a.focus with
  | .task t => { a with focus := (t.first a.env).1, pending := (t.first a.env).2 ++ a.pending }
  | .act p => a.perform p
  | .enter scope frame body => a.enter scope frame body
  | .ended r =>
    match a.pending with
    | p :: ps => a.resume r p ps
    | [] => a.leave r

/-- How the evaluation of a node begins. -/
def start (m : Machine) (env : ScopeId) : Node → Moment
  | .program p => ⟨.task (.stmts p.statements .null), env, [.program], [], m⟩
  | .statement s => ⟨.task (.stmt s), env, [], [], m⟩
  | .expression e => ⟨.task (.expr e), env, [], [], m⟩
  | .missing => ⟨.unwind (.fault (.placeholder .program)), env, [], [], m⟩

/-- The answer with the machine, as a step of evaluation has it. -/
def result (m : Machine) : Except Unwind Value → EStateM.Result Unwind Machine Value
  | .ok v => .ok v m
  | .error u => .error u m

theorem machine_ofResult (m : Machine) (r : Except Unwind Value) :
    (Outcome.ofResult (result m r)).2 = m := by
  cases r with
  | ok v => rfl
  | error u => cases u <;> rfl

/-- The outcome and the machine that is left, once there is nothing left to do. -/
def outcome? (a : Moment) : Option (Outcome × Machine) :=
  match a with
  | ⟨.ended r, _, [], [], m⟩ => some (Outcome.ofResult (result m r))
  | _ => none

/-! ## Runs -/

variable {a b c : Moment}

/-- What each step keeps holds at every moment. -/
theorem iterate_next {P : Moment → Prop} (hstep : ∀ a, P a → P a.next) (ha : P a) (k : Nat) :
    P (next^[k] a) := by
  induction k with
  | zero => exact ha
  | succ k ih =>
    rw [Function.iterate_succ_apply']
    exact hstep _ ih

/-- Some number of steps leads from `a` to `b`. -/
def LeadsTo (a b : Moment) : Prop := ∃ k, next^[k] a = b

namespace LeadsTo

theorem refl (a : Moment) : a.LeadsTo a := ⟨0, rfl⟩

theorem trans (h : a.LeadsTo b) (h' : b.LeadsTo c) : a.LeadsTo c := by
  obtain ⟨k, rfl⟩ := h
  obtain ⟨l, rfl⟩ := h'
  exact ⟨l + k, Function.iterate_add_apply next l k a⟩

theorem step (h : a.next.LeadsTo b) : a.LeadsTo b := by
  obtain ⟨k, rfl⟩ := h
  exact ⟨k + 1, Function.iterate_succ_apply next k a⟩

/-- What each step keeps still holds where the steps lead. -/
theorem invariant {P : Moment → Prop} (hstep : ∀ a, P a → P a.next) (h : a.LeadsTo b)
    (ha : P a) : P b := by
  obtain ⟨k, rfl⟩ := h
  exact iterate_next hstep ha k

end LeadsTo

theorem exists_of_outcome? {r : Outcome × Machine} (h : a.outcome? = some r) :
    ∃ answer, a.focus = .ended answer ∧ a.pending = [] ∧ a.callers = [] ∧
      r = Outcome.ofResult (result a.machine answer) := by
  unfold outcome? at h
  split at h
  · cases h
    exact ⟨_, rfl, rfl, rfl, rfl⟩
  · cases h

/-- The machine that is left is that of the last moment. -/
theorem machine_of_outcome? {o : Outcome} {n : Machine} (h : a.outcome? = some (o, n)) :
    n = a.machine := by
  obtain ⟨answer, -, -, -, heq⟩ := exists_of_outcome? h
  exact (congrArg Prod.snd heq).trans (machine_ofResult a.machine answer)

/-- What is finished stays as it is. -/
theorem next_of_outcome? {r : Outcome × Machine} (h : a.outcome? = some r) : a.next = a := by
  obtain ⟨focus, env, pending, callers, m⟩ := a
  obtain ⟨answer, rfl, rfl, rfl, -⟩ := exists_of_outcome? h
  rfl

theorem iterate_next_of_outcome? {r : Outcome × Machine} (h : a.outcome? = some r) (k : Nat) :
    next^[k] a = a :=
  Function.iterate_fixed (next_of_outcome? h) k

end Moment

/-- After finitely many steps, the evaluation of the node has the outcome and leaves the machine. -/
def Machine.Finishes (m : Machine) (env : ScopeId) (node : Node) (outcome : Outcome)
    (left : Machine) : Prop :=
  ∃ k, (Moment.next^[k] (Moment.start m env node)).outcome? = some (outcome, left)

/-- From an end on, every moment is that end. -/
theorem Moment.iterate_of_le {a : Moment} {j k : Nat} {r : Outcome × Machine}
    (h : (next^[j] a).outcome? = some r) (hle : j ≤ k) : next^[k] a = next^[j] a := by
  obtain ⟨i, rfl⟩ := Nat.exists_eq_add_of_le' hle
  rw [Function.iterate_add_apply, iterate_next_of_outcome? h]

/-- An evaluation has one end. -/
theorem Machine.Finishes.unique {m n n' : Machine} {env : ScopeId} {node : Node} {o o' : Outcome}
    (h : m.Finishes env node o n) (h' : m.Finishes env node o' n') : o' = o ∧ n' = n := by
  obtain ⟨k, hk⟩ := h
  obtain ⟨l, hl⟩ := h'
  have heq : some (o', n') = some (o, n) := by
    rcases Nat.le_total k l with hle | hle
    · rw [← hl, Moment.iterate_of_le hk hle, hk]
    · rw [← hk, Moment.iterate_of_le hl hle, hl]
  cases heq
  exact ⟨rfl, rfl⟩

end Ember
