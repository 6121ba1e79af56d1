import Ember.Eval.Builtin
import Ember.Eval.Operator
import Ember.Tree.Program

/-!
# The interpreter

Evaluation follows the tree from left to right. The first step that unwinds, by an error, a `return`
or a fault, ends everything around it up to the next boundary: the end of a function body or of the
program for a `return`, the boundary of the interpreter for the rest.

## Termination

Evaluating an expression is structural: the only step that leaves the tree is a call of a function
value, whose body may be any tree. How such a call is carried out is a parameter here (`Apply`), and
`applyFunction` supplies it from a budget of nested calls. With a limit on the call depth, the
budget of what the limit still allows is never used up.
-/

namespace Ember

/-- How a function value is called: literal, scope, frame and arguments. -/
abbrev Apply := FunctionLiteral → ScopeId → CallFrame → List Value → Eval Value

namespace Eval

/-- The value of a variable: a binding of its name, else the builtin with that name. -/
def resolve (env : ScopeId) (name : Identifier) : Eval Value := do
  if name.isMissing then throw (.fault (.placeholder .identifier))
  match (← get).heap.lookup env name.name with
  | some v => pure v
  | none =>
    match Builtin.ofName? name.name with
    | some b => pure (.builtin b)
    | none => throw (.error (.unbound name.name))

/-- Binds a name in a scope. -/
def bindName (env : ScopeId) (name : String) (value : Value) : Eval Unit :=
  modify fun m => { m with heap := m.heap.set env name value }

/-- The name that a call shows in its frame. -/
def calleeName : Expr → String
  | .identifier name => name.name
  | _ => "<anonymous>"

/-- Calls a value. -/
def applyValue (apply : Apply) (callee : Value) (frame : CallFrame) (args : List Value) :
    Eval Value :=
  match callee with
  | .function _ literal scope => apply literal scope frame args
  | .builtin b => b.run args
  | v => throw (.error (.notCallable v.type))

variable (apply : Apply) (env : ScopeId)

mutual

/-- Evaluates an expression. -/
def expr : Expr → Eval Value
  | .identifier name => resolve env name
  | .integer _ n => pure (.integer n)
  | .boolean _ b => pure (.boolean b)
  | .string _ s => pure (.string s)
  | .array _ elements => do
    let values ← exprs elements
    allocate (.array · values)
  | .hash _ ps => do
    let entries ← pairs ps []
    allocate (.hash · entries)
  | .unary _ op right => do
    let v ← expr right
    ofExcept (evalUnary op v)
  | .binary _ left op right => do
    let a ← expr left
    let b ← expr right
    ofExcept (evalBinary a op b)
  | .conditional _ condition consequence none => do
    let c ← expr condition
    if c.isTruthy then block consequence else pure .null
  | .conditional _ condition consequence (some alternative) => do
    let c ← expr condition
    if c.isTruthy then block consequence else block alternative
  | .function literal => allocate (.function · literal env)
  | .call token callee arguments => do
    let f ← expr callee
    let args ← exprs arguments
    applyValue apply f ⟨calleeName callee, token.position⟩ args
  | .index _ left index => do
    let a ← expr left
    let i ← expr index
    ofExcept (evalIndex a i)
  | .missing _ => throw (.fault (.placeholder .expression))

/-- Evaluates expressions in order. -/
def exprs : List Expr → Eval (List Value)
  | [] => pure []
  | e :: es => do
    let v ← expr e
    let vs ← exprs es
    pure (v :: vs)

/-- Evaluates the pairs of a hash literal in order, each key before its value, onto `entries`. -/
def pairs : List (Expr × Expr) → HashEntries → Eval HashEntries
  | [], entries => pure entries
  | (key, value) :: ps, entries => do
    let k ← expr key
    match k.hashKey? with
    | none => throw (.error (.badHashKey k.type))
    | some hashKey =>
      let v ← expr value
      pairs ps (OrderedMap.insert hashKey (k, v) entries)

/-- Evaluates the statements of a block in the scope around it. -/
def block : Block → Eval Value
  | ⟨_, statements⟩ => stmts statements .null

/-- Evaluates statements in order; the value is that of the last one, or `last` if there is none. -/
def stmts : List Stmt → Value → Eval Value
  | [], last => pure last
  | s :: ss, _ => do
    let v ← stmt s
    stmts ss v

/-- Evaluates a statement. -/
def stmt : Stmt → Eval Value
  | .letBinding _ name value => do
    if name.isMissing then throw (.fault (.placeholder .identifier))
    let v ← expr value
    bindName env name.name v
    pure .null
  | .returning _ value => do
    let v ← expr value
    throw (.returning v)
  | .expression _ e => expr e
  | .block b => block b
  | .missing _ => throw (.fault (.placeholder .statement))

end

end Eval

/-! ## Calls -/

/-- Binds parameters to arguments, in order. -/
def bindParameters (env : ScopeId) : List Identifier → List Value → Eval Unit
  | p :: ps, v :: vs => do
    if p.isMissing then throw (.fault (.placeholder .identifier))
    Eval.bindName env p.name v
    bindParameters env ps vs
  | _, _ => pure ()

/-- Calls a function value: its body is run in a new scope inside the one that it was made in. -/
def callWith (body : ScopeId → Block → Eval Value) : Apply := fun literal scope frame args => do
  if literal.arity ≠ args.length then
    throw (.error (.functionArity literal.arity args.length))
  let env ← Eval.onHeap (·.newScope (some scope))
  bindParameters env literal.parameters args
  Eval.inFrame frame (body env literal.body)

/-- Calls a function value, with a budget for the calls nested in it. -/
def applyFunction : Nat → Apply
  | 0 => callWith fun _ _ => throw .exhausted
  | budget + 1 => callWith fun env body => Eval.block (applyFunction budget) env body

/-! ## The boundary of the interpreter -/

/-- The end of an evaluation. -/
inductive Outcome where
  | value (v : Value)
  | fault (f : Fault)
  /-- The budget of nested calls was used up. -/
  | exhausted

namespace Machine

/-- The budget when calls may nest without limit: one call for every natural number that fits. -/
def unlimitedBudget : Nat := 0x8000000000000000

/-- How many calls may still be nested. -/
def callBudget (m : Machine) : Nat :=
  match m.calls.limit with
  | some limit => limit - m.calls.depth
  | none => unlimitedBudget

end Machine

/-- What leaves the interpreter: signals become values. -/
def Outcome.ofResult : EStateM.Result Unwind Machine Value → Outcome × Machine
  | .ok v m => (.value v, m)
  | .error (.returning v) m => (.value (.returnSignal v), m)
  | .error (.error e) m => (.value (.error e.message), m)
  | .error (.fault f) m => (.fault f, m)
  | .error .exhausted m => (.exhausted, m)

/-- Runs the statements of a program; a `return` among them ends the program. -/
def runProgram (apply : Apply) (env : ScopeId) (p : Program) : Eval Value := fun m =>
  match Eval.stmts apply env p.statements .null m with
  | .error (.returning v) m => .ok v m
  | result => result

/-- Evaluates a node. -/
def runNode (apply : Apply) (env : ScopeId) : Node → Eval Value
  | .program p => runProgram apply env p
  | .statement s => Eval.stmt apply env s
  | .expression e => Eval.expr apply env e
  | .missing => throw (.fault (.placeholder .program))

namespace Machine

/-- Evaluates a node in a scope. -/
def eval (m : Machine) (env : ScopeId) (node : Node) : Outcome × Machine :=
  Outcome.ofResult (runNode (applyFunction m.callBudget) env node m)

/-- A new scope that is enclosed by `outer`, or by none. -/
def newScope (m : Machine) (outer : Option ScopeId) : ScopeId × Machine :=
  let (id, heap) := m.heap.newScope outer
  (id, { m with heap })

end Machine

end Ember
