import Ember.Proofs.Eval.Moment
import Ember.Proofs.Eval.Scopes

/-!
# What a step can do

An action looks at the heap and no further: neither the call stack nor the printer decides what it
does. And what it does to the machine is one of a few changes (`Change`). `Action.Does` lists what
each action can do, and `Moment.exists_perform_eq` says that there is nothing else. What evaluation
keeps is shown by cases on that list.

Going on in the tree neither binds parameters nor pushes a frame, and refuses no call
(`Focus.InTree`). No action changes the call stack: a step pushes a frame when it begins the body of
a call, pops one when it leaves a body, and does neither otherwise (`Moment.calls_next`).
-/

namespace Ember

/-! ## Changes -/

/-- Prints lines in order. -/
def Printer.printAll (lines : List String) (p : Printer) : Printer :=
  lines.foldl (fun p line => p.println line) p

/-- The lines come behind the text that is there. -/
theorem Printer.exists_text_printAll (lines : List String) (p : Printer) :
    ∃ rest, (p.printAll lines).text = p.text ++ rest := by
  induction lines generalizing p with
  | nil => exact ⟨"", String.append_empty.symm⟩
  | cons line lines ih =>
    obtain ⟨rest, hrest⟩ := ih (p.println line)
    cases p with
    | silent => exact ⟨rest, hrest⟩
    | buffer text =>
      refine ⟨line ++ "\n" ++ rest, hrest.trans ?_⟩
      simp [println, Printer.text, String.append_assoc]

/-- A change of the machine. -/
inductive Change where
  | none
  /-- An identity is given out. -/
  | identity
  | print (lines : List String)
  | newScope (outer : ScopeId)
  | set (scope : ScopeId) (name : String) (value : Value)

namespace Change

/-- The heap after the change. -/
def onHeap (h : Heap) : Change → Heap
  | none | print _ => h
  | identity => h.freshIdentity.2
  | newScope outer => (h.newScope (some outer)).2
  | set scope name value => h.set scope name value

/-- The lines that the change prints. -/
def lines : Change → List String
  | print lines => lines
  | _ => []

/-- The machine after the change. -/
def apply (c : Change) (m : Machine) : Machine :=
  { m with heap := c.onHeap m.heap, printer := m.printer.printAll c.lines }

/-- No scope goes away. -/
theorem size_le (c : Change) (h : Heap) : h.scopes.size ≤ (c.onHeap h).scopes.size := by
  cases c with
  | none | identity | print _ => exact Nat.le_refl _
  | newScope outer => exact Nat.le_trans (Nat.le_succ _) (Nat.le_of_eq (h.size_newScope _).symm)
  | set scope name v => exact Nat.le_of_eq (h.size_set scope name v).symm

/-- The change leaves all scopes as they are. -/
def SparesScopes (c : Change) : Prop := ∀ h, (c.onHeap h).scopes = h.scopes

theorem sparesScopes_none : none.SparesScopes := fun _ => rfl

theorem sparesScopes_identity : identity.SparesScopes := fun _ => rfl

theorem sparesScopes_print (lines : List String) : (print lines).SparesScopes := fun _ => rfl

end Change

/-! ## Builtins -/

namespace Builtin

theorem forM_println : ∀ (args : List Value) (m : Machine),
    (args.forM fun v => Eval.println v.render) m =
      .ok () { m with printer := m.printer.printAll (args.map Value.render) }
  | [], _ => rfl
  | v :: args, m => forM_println args { m with printer := m.printer.println v.render }

/-- `puts` prints its arguments in order, a line each. -/
theorem run_puts (args : List Value) : puts.run args =
    fun m => .ok .null { m with printer := m.printer.printAll (args.map Value.render) } :=
  funext fun m => Eval.bind_of_ok (forM_println args m) fun _ => pure Value.null

/-- What a call of a builtin comes to: a value and a change that spares the scopes, or an error. -/
inductive Does (args : List Value) : Eval Value → Prop
  | value {v : Value} (hv : v.scopes ⊆ scopesOf args) : Does args (pure v)
  | fresh {make : Identity → Value} (hmake : ∀ id, (make id).scopes ⊆ scopesOf args) :
      Does args (Eval.allocate make)
  | print (lines : List String) :
      Does args fun m => .ok .null { m with printer := m.printer.printAll lines }
  | error (e : RuntimeError) : Does args (throw (.error e))

variable {args : List Value}

/-- One argument is taken, or the call is in error. -/
theorem Does.single {f : Value → Eval Value} (h : ∀ v, args = [v] → Does args (f v)) :
    Does args (Builtin.single args >>= f) := by
  match args with
  | [v] => exact h v rfl
  | [] | _ :: _ :: _ => exact .error _

/-- The elements of an array are taken, or the call is in error. -/
theorem Does.elementsOf {b : Builtin} {v : Value} {f : List Value → Eval Value}
    (hv : v.scopes ⊆ scopesOf args) (h : ∀ es, scopesOf es ⊆ scopesOf args → Does args (f es)) :
    Does args (Builtin.elementsOf b v >>= f) := by
  cases v with
  | array id es => exact h es hv
  | _ => exact .error _

/-- The elements of the one argument are taken, or the call is in error. -/
theorem Does.elements {b : Builtin} {f : List Value → Eval Value}
    (h : ∀ es, scopesOf es ⊆ scopesOf args → Does args (f es)) :
    Does args (Builtin.single args >>= fun v => Builtin.elementsOf b v >>= f) :=
  .single fun _ hargs => .elementsOf (scopes_subset_of_mem (hargs ▸ List.mem_cons_self)) h

/-- Every builtin does one of these. -/
theorem does_run (b : Builtin) (args : List Value) : Does args (b.run args) := by
  cases b with
  | len =>
    refine .single fun v _ => ?_
    cases v with
    | string _ | array _ _ => exact .value (List.nil_subset _)
    | _ => exact .error _
  | first =>
    refine .elements fun es hes => .value ?_
    exact scopes_getD_subset fun v hv =>
      List.Subset.trans (scopes_subset_of_mem (List.mem_of_head? hv)) hes
  | last =>
    refine .elements fun es hes => .value ?_
    exact scopes_getD_subset fun v hv =>
      List.Subset.trans (scopes_subset_of_mem (List.mem_of_getLast? hv)) hes
  | rest =>
    refine .elements fun es hes => ?_
    cases es with
    | nil => exact .value (List.nil_subset _)
    | cons v es => exact .fresh fun _ => List.Subset.trans (List.subset_append_right _ _) hes
  | push =>
    match args with
    | [v, new] =>
      refine .elementsOf (scopes_subset_of_mem List.mem_cons_self) fun es hes => .fresh fun _ => ?_
      show scopesOf (es ++ [new]) ⊆ _
      rw [scopesOf_append]
      exact List.append_subset.mpr ⟨hes, List.subset_append_right _ _⟩
    | [] | [_] | _ :: _ :: _ :: _ => exact .error _
  | puts =>
    rw [run_puts]
    exact .print _

end Builtin

/-! ## Going on in the tree -/

/-- What is done next where evaluation goes on in a tree. -/
inductive Focus.InTree : Focus → Prop
  | task (t : Task) : InTree (.task t)
  | value (v : Value) : InTree (.value v)
  | error (e : RuntimeError) : InTree (.unwind (.error e))
  | returning (v : Value) : InTree (.unwind (.returning v))
  | placeholder (kind : Placeholder) : InTree (.unwind (.fault (.placeholder kind)))
  | array (vs : List Value) : InTree (.act (.array vs))
  | hash (es : HashEntries) : InTree (.act (.hash es))
  | function (f : FunctionLiteral) : InTree (.act (.function f))
  | assign (name : String) (v : Value) : InTree (.act (.assign name v))
  | run (b : Builtin) (args : List Value) : InTree (.act (.run b args))
  | lookup (name : String) (scope : ScopeId) : InTree (.act (.lookup name scope))
  | call (f : FunctionLiteral) (scope : ScopeId) (frame : CallFrame) (args : List Value) :
      InTree (.act (.call f scope frame args))

theorem Purpose.inTree_finish (purpose : Purpose) (vs : List Value) :
    (purpose.finish vs).InTree := by
  cases purpose with
  | array => exact .array vs
  | call callee frame =>
    cases callee with
    | function id f scope => exact .call f scope frame vs
    | builtin b => exact .run b vs
    | _ => exact .error _

theorem Focus.inTree_ofExcept (r : Except RuntimeError Value) : (Focus.ofExcept r).InTree := by
  cases r with
  | ok v => exact .value v
  | error e => exact .error e

theorem Focus.inTree_branch (v : Value) (consequence : Block) (alternative : Option Block) :
    (Focus.branch v consequence alternative).InTree := by
  unfold branch
  split
  · exact .task _
  · cases alternative with
    | none => exact .value .null
    | some b => exact .task _

theorem Expr.inTree_first (env : ScopeId) (e : Expr) : (e.first env).1.InTree := by
  cases e with
  | identifier name =>
    rw [first]
    split
    · exact .placeholder .identifier
    · exact .lookup name.name env
  | integer _ _ | boolean _ _ | string _ _ => exact .value _
  | function f => exact .function f
  | missing _ => exact .placeholder .expression
  | array _ _ | hash _ _ | unary _ _ _ | binary _ _ _ _ | conditional _ _ _ _ | call _ _ _
  | index _ _ _ => exact .task _

theorem Stmt.inTree_first (s : Stmt) : s.first.1.InTree := by
  cases s with
  | letBinding _ name _ =>
    rw [first]
    split
    · exact .placeholder .identifier
    · exact .task _
  | returning _ _ | expression _ _ | block _ => exact .task _
  | missing _ => exact .placeholder .statement

/-- A part of a tree begins in the tree. -/
theorem Task.inTree_first (env : ScopeId) (t : Task) : (t.first env).1.InTree := by
  cases t with
  | expr e => exact e.inTree_first env
  | stmt s => exact s.inTree_first
  | collect purpose done todo =>
    cases todo with
    | nil => exact purpose.inTree_finish done
    | cons e es => exact .task _
  | pairs todo entries =>
    cases todo with
    | nil => exact .hash entries
    | cons p ps => exact .task _
  | stmts todo last =>
    cases todo with
    | nil => exact .value last
    | cons s ss => exact .task _

/-- What waits for a value goes on in the tree. -/
theorem Pending.inTree_resume (p : Pending) (v : Value) : (p.resume v).1.InTree := by
  cases p with
  | key value todo entries =>
    rw [resume]
    split
    · exact .error _
    · exact .task _
  | unary op => exact Focus.inTree_ofExcept (evalUnary op v)
  | right a op => exact Focus.inTree_ofExcept (evalBinary a op v)
  | index a => exact Focus.inTree_ofExcept (evalIndex a v)
  | condition consequence alternative => exact Focus.inTree_branch v consequence alternative
  | collect _ _ _ | entry _ _ _ _ | left _ _ | callee _ _ | indexed _ | stmts _ => exact .task _
  | binding name => exact .assign name v
  | returning => exact .returning v
  | program => exact .value v

/-! ## Actions -/

/--
What an action does in the scope `env` of a body, with the heap `h`: what is done next, and the
change of the machine.
-/
inductive Action.Does (env : ScopeId) (h : Heap) : Action → Focus → Change → Prop
  | array (vs : List Value) :
      Does env h (.array vs) (.value (.array h.freshIdentity.1 vs)) .identity
  | hash (es : HashEntries) :
      Does env h (.hash es) (.value (.hash h.freshIdentity.1 es)) .identity
  | function (f : FunctionLiteral) :
      Does env h (.function f) (.value (.function h.freshIdentity.1 f env)) .identity
  | assign (name : String) (v : Value) :
      Does env h (.assign name v) (.value .null) (.set env name v)
  | run {b : Builtin} {args : List Value} {v : Value} {c : Change} (hc : c.SparesScopes)
      (hv : v.scopes ⊆ scopesOf args) : Does env h (.run b args) (.value v) c
  | runError {b : Builtin} {args : List Value} (e : RuntimeError) :
      Does env h (.run b args) (.unwind (.error e)) .none
  | found {name : String} {id : ScopeId} {s : Scope} {v : Value} (hs : h.scope? id = some s)
      (hv : OrderedMap.get? s.bindings name = some v) :
      Does env h (.lookup name id) (.value v) .none
  /-- The name is looked up in the scope around. -/
  | outwards {name : String} {id outer : ScopeId} {s : Scope} (hs : h.scope? id = some s)
      (hv : OrderedMap.get? s.bindings name = none) (ho : s.outer = some outer) :
      Does env h (.lookup name id) (.act (.lookup name outer)) .none
  | builtin {name : String} {id : ScopeId} (b : Builtin) :
      Does env h (.lookup name id) (.value (.builtin b)) .none
  | unbound {name : String} {id : ScopeId} (e : RuntimeError) :
      Does env h (.lookup name id) (.unwind (.error e)) .none
  | arity {f : FunctionLiteral} {scope : ScopeId} {frame : CallFrame} {args : List Value}
      (e : RuntimeError) : Does env h (.call f scope frame args) (.unwind (.error e)) .none
  | call (f : FunctionLiteral) (scope : ScopeId) (frame : CallFrame) (args : List Value) :
      Does env h (.call f scope frame args)
        (.act (.bind ⟨h.scopes.size⟩ f.parameters args frame f.body)) (.newScope scope)
  | unnamed {scope : ScopeId} {ps : List Identifier} {args : List Value} {frame : CallFrame}
      {body : Block} :
      Does env h (.bind scope ps args frame body) (.unwind (.fault (.placeholder .identifier)))
        .none
  | bind {scope : ScopeId} {p : Identifier} {ps : List Identifier} {v : Value} {vs : List Value}
      {frame : CallFrame} {body : Block} :
      Does env h (.bind scope (p :: ps) (v :: vs) frame body)
        (.act (.bind scope ps vs frame body)) (.set scope p.name v)
  | bound {scope : ScopeId} {ps : List Identifier} {args : List Value} {frame : CallFrame}
      {body : Block} :
      Does env h (.bind scope ps args frame body) (.enter scope frame body) .none

/-- A lookup in one scope does one of these. -/
theorem Action.does_find (env : ScopeId) (h : Heap) (name : String) (id : ScopeId) :
    (lookup name id).Does env h (find h name id) .none := by
  have hunbound : (lookup name id).Does env h (unbound name) .none := by
    unfold unbound
    cases Builtin.ofName? name with
    | some b => exact .builtin b
    | none => exact .unbound _
  unfold find
  split
  · exact hunbound
  · next s hs =>
    split
    · next v hv => exact .found hs hv
    · next hv =>
      split
      · next outer ho => exact .outwards hs hv ho
      · exact hunbound

namespace Moment

variable {a : Moment} {p : Action} {f : Focus} {m : Machine}

theorem perform_of_ok (h : p.effect a.env a.machine = .ok f m) :
    a.perform p = { a with focus := f, machine := m } := by
  simp only [perform, h]

theorem perform_of_error {u : Unwind} (h : p.effect a.env a.machine = .error u m) :
    a.perform p = { a with focus := .unwind u, machine := m } := by
  simp only [perform, h]

/-- What an action does is on the list, and it depends on the heap and the scope only. -/
theorem exists_perform_eq (p : Action) (env : ScopeId) (h : Heap) :
    ∃ f c, p.Does env h f c ∧ ∀ a : Moment, a.env = env → a.machine.heap = h →
      a.perform p = { a with focus := f, machine := c.apply a.machine } := by
  cases p with
  | array vs => exact ⟨_, _, .array vs, by rintro _ rfl rfl; exact perform_of_ok rfl⟩
  | hash es => exact ⟨_, _, .hash es, by rintro _ rfl rfl; exact perform_of_ok rfl⟩
  | function f => exact ⟨_, _, .function f, by rintro _ rfl rfl; exact perform_of_ok rfl⟩
  | assign name v => exact ⟨_, _, .assign name v, by rintro _ rfl rfl; exact perform_of_ok rfl⟩
  | run b args =>
    have heffect : (Action.run b args).effect env = b.run args >>= fun v => pure (.value v) := rfl
    have hdoes := Builtin.does_run b args
    -- What a builtin does is one of four things, and none of them looks at the rest of the moment.
    generalize b.run args = r at heffect hdoes
    cases hdoes with
    | value hv =>
      refine ⟨_, _, .run Change.sparesScopes_none hv, ?_⟩
      rintro a rfl -
      exact perform_of_ok (by rw [heffect]; rfl)
    | fresh hmake =>
      refine ⟨_, _, .run Change.sparesScopes_identity (hmake h.freshIdentity.1), ?_⟩
      rintro a rfl rfl
      exact perform_of_ok (by rw [heffect]; rfl)
    | print lines =>
      refine ⟨.value .null, _, .run (Change.sparesScopes_print lines) (List.nil_subset _), ?_⟩
      rintro a rfl -
      exact perform_of_ok (by rw [heffect]; rfl)
    | error e =>
      refine ⟨_, _, .runError e, ?_⟩
      rintro a rfl -
      exact perform_of_error (by rw [heffect]; rfl)
  | lookup name id =>
    exact ⟨_, _, Action.does_find env h name id, by rintro _ rfl rfl; exact perform_of_ok rfl⟩
  | call f scope frame args =>
    by_cases harity : f.arity ≠ args.length
    · refine ⟨_, _, .arity (.functionArity f.arity args.length), ?_⟩
      rintro a rfl rfl
      exact perform_of_error (by rw [Action.effect, if_pos harity]; rfl)
    · refine ⟨_, _, .call f scope frame args, ?_⟩
      rintro a rfl rfl
      exact perform_of_ok (by rw [Action.effect, if_neg harity]; rfl)
  | bind scope ps args frame body =>
    match ps, args with
    | [], _ => exact ⟨_, _, .bound, by rintro _ rfl rfl; exact perform_of_ok rfl⟩
    | _ :: _, [] => exact ⟨_, _, .bound, by rintro _ rfl rfl; exact perform_of_ok rfl⟩
    | p :: ps, v :: vs =>
      by_cases hmissing : p.isMissing = true
      · refine ⟨_, _, .unnamed, ?_⟩
        rintro a rfl rfl
        exact perform_of_error (by rw [Action.effect, if_pos hmissing]; rfl)
      · refine ⟨_, _, .bind, ?_⟩
        rintro a rfl rfl
        exact perform_of_ok (by rw [Action.effect, if_neg hmissing]; rfl)

/-! ## Calls under way -/

/-- What a step does to the calls under way: to the bodies that wait, and to their frames. -/
inductive Calls (a b : Moment) : Prop
  | same (hcallers : b.callers = a.callers) (hcalls : b.machine.calls = a.machine.calls)
  | pushed {c : Activation} {frame : CallFrame} (hcallers : b.callers = c :: a.callers)
      (hcalls : a.machine.calls.push frame = .ok b.machine.calls)
  | popped {c : Activation} (hcallers : a.callers = c :: b.callers)
      (hcalls : b.machine.calls = a.machine.calls.pop)

theorem calls_perform (a : Moment) (p : Action) : a.Calls (a.perform p) := by
  obtain ⟨f, c, -, heq⟩ := exists_perform_eq p a.env a.machine.heap
  rw [heq a rfl rfl]
  exact .same rfl rfl

theorem calls_enter (a : Moment) (scope : ScopeId) (frame : CallFrame) (body : Block) :
    a.Calls (a.enter scope frame body) := by
  unfold enter
  split
  · exact .same rfl rfl
  · next hpush => exact .pushed rfl hpush

theorem calls_leave (a : Moment) (r : Except Unwind Value) : a.Calls (a.leave r) := by
  unfold leave
  split
  · exact .same rfl rfl
  · next hcallers => exact .popped hcallers rfl

/-- A step pushes a frame for a body that waits, or pops it with that body, or does neither. -/
theorem calls_next (a : Moment) : a.Calls a.next := by
  unfold next
  split
  · exact .same rfl rfl
  · exact a.calls_perform _
  · exact a.calls_enter _ _ _
  · split
    · unfold resume
      split <;> exact .same rfl rfl
    · exact a.calls_leave _

theorem callers_start (m : Machine) (env : ScopeId) (node : Node) :
    (start m env node).callers = [] := by
  cases node <;> rfl

theorem machine_start (m : Machine) (env : ScopeId) (node : Node) :
    (start m env node).machine = m := by
  cases node <;> rfl

/-- There are no more bodies that wait than steps. -/
theorem length_callers_iterate_le (a : Moment) (k : Nat) :
    (next^[k] a).callers.length ≤ a.callers.length + k := by
  induction k with
  | zero => exact Nat.le_refl _
  | succ k ih =>
    rw [Function.iterate_succ_apply']
    cases calls_next (next^[k] a) with
    | same hcallers _ =>
      rw [hcallers]
      omega
    | pushed hcallers _ =>
      rw [hcallers, List.length_cons]
      omega
    | popped hcallers _ =>
      rw [hcallers, List.length_cons] at ih
      omega

/-! ## Other machines -/

/-- The moment with its machine changed. -/
def onMachine (f : Machine → Machine) (a : Moment) : Moment := { a with machine := f a.machine }

section OnMachine

variable {f : Machine → Machine}

theorem start_onMachine (f : Machine → Machine) (m : Machine) (env : ScopeId) (node : Node) :
    start (f m) env node = (start m env node).onMachine f := by
  cases node <;> rfl

/-- How an evaluation has ended does not depend on the machine. -/
theorem outcome?_onMachine (f : Machine → Machine) (a : Moment) :
    (a.onMachine f).outcome? = a.outcome?.map fun r => (r.1, f r.2) := by
  obtain ⟨focus, env, pending, callers, m⟩ := a
  match focus, pending, callers with
  | .ended (.ok v), [], [] => rfl
  | .ended (.error u), [], [] => cases u <;> rfl
  | .ended _, _ :: _, _ | .ended _, [], _ :: _ => rfl
  | .task _, _, _ | .act _, _, _ | .enter _ _ _, _, _ => rfl

/--
The machine may be changed before or after a step if that is so of actions, of frames that are
pushed and of frames that are popped.
-/
theorem next_onMachine
    (hact : ∀ p, a.focus = .act p → (a.onMachine f).perform p = (a.perform p).onMachine f)
    (henter : ∀ scope frame body, a.focus = .enter scope frame body →
      (a.onMachine f).enter scope frame body = (a.enter scope frame body).onMachine f)
    (hpop : ∀ m, Eval.popFrame (f m) = f (Eval.popFrame m)) :
    (a.onMachine f).next = a.next.onMachine f := by
  obtain ⟨focus, env, pending, callers, m⟩ := a
  cases focus with
  | task t => rfl
  | act p => exact hact p rfl
  | enter scope frame body => exact henter scope frame body rfl
  | ended r =>
    cases pending with
    | cons p ps => cases r <;> rfl
    | nil =>
      cases callers with
      | nil => rfl
      | cons c cs =>
        show Moment.mk _ _ _ _ (Eval.popFrame (f m)) = _
        rw [hpop]
        rfl

/-- Where that is so of each of the first `k` steps, it is so of these steps. -/
theorem iterate_onMachine (k : Nat) (h : ∀ j < k,
    ((next^[j] a).onMachine f).next = (next^[j] a).next.onMachine f) :
    next^[k] (a.onMachine f) = (next^[k] a).onMachine f := by
  induction k with
  | zero => rfl
  | succ k ih =>
    rw [Function.iterate_succ_apply', Function.iterate_succ_apply',
      ih fun j hj => h j (Nat.lt_succ_of_lt hj)]
    exact h k (Nat.lt_succ_self k)

end OnMachine

end Moment

end Ember
