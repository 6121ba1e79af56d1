import Ember.Proofs.Eval.Closed
import Ember.Proofs.Eval.Faults

/-!
# The interpreter, step by step

The interpreter does what the moments of an evaluation do. Where it gives an answer without using
its budget up, the steps lead to that answer and that machine (`Moment.Follows`); where it uses the
budget up, there is a moment at which more calls are under way than the budget has.

So an evaluation ends after finitely many steps if and only if some budget is enough for it, and
then both say how it ends (`Machine.finishes_iff`).
-/

namespace Ember

/-! ## Following the interpreter -/

/-- Where an answer is passed on to. -/
structure Context where
  env : ScopeId
  pending : List Pending
  callers : List Activation

namespace Context

/-- The moment in a context. -/
def moment (c : Context) (focus : Focus) (m : Machine) : Moment :=
  ⟨focus, c.env, c.pending, c.callers, m⟩

/-- The context of a part: the rest waits for it. -/
def push (c : Context) (p : Pending) : Context := { c with pending := p :: c.pending }

/-- The context of the body of a call. -/
def call (c : Context) (scope : ScopeId) : Context := ⟨scope, [], ⟨c.env, c.pending⟩ :: c.callers⟩

end Context

namespace Moment

variable {α β : Type} {bound budget : Nat} {a b : Moment} {c c' : Context} {ret : α → Focus}
  {ret' : β → Focus} {m n : Machine} {apply : Apply}

/--
The steps from a moment lead to the answer that the interpreter gives. If it uses up its budget,
they lead to a moment with more calls under way than `bound`.
-/
inductive Follows (bound : Nat) (a : Moment) (c : Context) (ret : α → Focus) :
    EStateM.Result Unwind Machine α → Prop
  | ok {x : α} {n : Machine} (h : a.LeadsTo (c.moment (ret x) n)) : Follows bound a c ret (.ok x n)
  | error {u : Unwind} {n : Machine} (hu : u ≠ .exhausted)
      (h : a.LeadsTo (c.moment (.unwind u) n)) : Follows bound a c ret (.error u n)
  | exhausted {n : Machine} (b : Moment) (h : a.LeadsTo b) (hlt : bound < b.callers.length) :
      Follows bound a c ret (.error .exhausted n)

namespace Follows

variable {r : EStateM.Result Unwind Machine α}

theorem leadsTo_of_ok {x : α} (h : a.Follows bound c ret (.ok x n)) :
    a.LeadsTo (c.moment (ret x) n) := by
  cases h with
  | ok h => exact h

theorem leadsTo_of_error {u : Unwind} (h : a.Follows bound c ret (.error u n))
    (hu : u ≠ .exhausted) : a.LeadsTo (c.moment (.unwind u) n) := by
  cases h with
  | error _ h => exact h
  | exhausted => exact absurd rfl hu

theorem of_leadsTo (hab : a.LeadsTo b) (h : b.Follows bound c ret r) : a.Follows bound c ret r := by
  cases h with
  | ok h => exact .ok (hab.trans h)
  | error hu h => exact .error hu (hab.trans h)
  | exhausted d h hlt => exact .exhausted d (hab.trans h) hlt

theorem step (h : a.next.Follows bound c ret r) : a.Follows bound c ret r :=
  of_leadsTo ⟨1, rfl⟩ h

theorem raise (e : RuntimeError) :
    (c.moment (.unwind (.error e)) m).Follows bound c ret (.error (.error e) m) :=
  .error nofun (.refl _)

theorem fault (f : Fault) :
    (c.moment (.unwind (.fault f)) m).Follows bound c ret (.error (.fault f) m) :=
  .error nofun (.refl _)

theorem ofExcept (r : Except RuntimeError Value) :
    (c.moment (.ofExcept r) m).Follows bound c .value (Eval.ofExcept r m) := by
  cases r with
  | ok v => exact .ok (.refl _)
  | error e => exact raise e

/-- An action that gives a value, or fails, at once. -/
theorem act {p : Action} {r : Eval Value}
    (heffect : p.effect c.env m = (r >>= fun v => Pure.pure (Focus.value v)) m)
    (hr : ∀ n, r m ≠ .error .exhausted n) :
    (c.moment (.act p) m).Follows bound c .value (r m) := by
  have hbind : (r >>= fun v => Pure.pure (Focus.value v)) m =
      EStateM.bind r (fun v => Pure.pure (Focus.value v)) m := rfl
  unfold EStateM.bind at hbind
  cases hrun : r m with
  | ok v n =>
    rw [hrun] at hbind
    exact .ok ⟨1, perform_of_ok (heffect.trans hbind)⟩
  | error u n =>
    rw [hrun] at hbind
    refine .error ?_ ⟨1, perform_of_error (heffect.trans hbind)⟩
    rintro rfl
    exact hr n hrun

end Follows

/-- What unwinds in one context goes on to unwind in another one. -/
def PassesOn (c' c : Context) : Prop :=
  ∀ u n, (c'.moment (.unwind u) n).LeadsTo (c.moment (.unwind u) n)

theorem PassesOn.refl (c : Context) : PassesOn c c := fun _ _ => .refl _

theorem passesOn_push (c : Context) {p : Pending} (hp : ∀ u, p.unwind u = .unwind u) :
    PassesOn (c.push p) c := by
  refine fun u n => ⟨1, ?_⟩
  show c.moment (p.unwind u) n = _
  rw [hp]

/-- One step of the interpreter after another. -/
theorem Follows.bind {r : Eval α} {g : α → Eval β} (ha : a.Closed) (hc : PassesOn c' c)
    (hr : a.Follows bound c' ret (r m))
    (hg : ∀ x n, (c'.moment (ret x) n).Closed →
      (c'.moment (ret x) n).Follows bound c ret' (g x n)) :
    a.Follows bound c ret' ((r >>= g) m) := by
  show a.Follows bound c ret' (EStateM.bind r g m)
  unfold EStateM.bind
  generalize r m = s at hr
  cases hr with
  | ok h => exact of_leadsTo h (hg _ _ (h.invariant (fun _ => Closed.next) ha))
  | error hu h => exact .error hu (h.trans (hc _ _))
  | exhausted b h hlt => exact .exhausted b h hlt

/-- A part of a tree is evaluated, and what waits for its value goes on with it. -/
theorem Follows.part (p : Pending) (hp : ∀ u, p.unwind u = .unwind u) {r : Eval Value}
    {g : Value → Eval β} (ha : a.Closed) (hr : a.Follows bound (c.push p) .value (r m))
    (hg : ∀ v n, ((c.push p).moment (.value v) n).next.Closed →
      ((c.push p).moment (.value v) n).next.Follows bound c ret' (g v n)) :
    a.Follows bound c ret' ((r >>= g) m) :=
  .bind ha (passesOn_push c hp) hr fun v n hn => .step (hg v n hn.next)

/-- A `return` ends where a body or a program ends; what unwinds otherwise goes on. -/
theorem Follows.atBoundary {f : Machine → Machine}
    (hc : ∀ r n, (c'.moment (.ended r) n).LeadsTo (c.moment (.ended (Ember.atBoundary r)) (f n))) :
    ∀ {s : EStateM.Result Unwind Machine Value}, a.Follows bound c' .value s →
      a.Follows bound c .value (match s with
        | .ok v n => .ok v (f n)
        | .error (.returning v) n => .ok v (f n)
        | .error u n => .error u (f n))
  | _, .ok h => .ok (h.trans (hc _ _))
  | .error (.returning _) _, .error _ h => .ok (h.trans (hc _ _))
  | .error (.error _) _, .error _ h => .error nofun (h.trans (hc _ _))
  | .error (.fault _) _, .error _ h => .error nofun (h.trans (hc _ _))
  | .error .exhausted _, .error hu _ => absurd rfl hu
  | _, .exhausted b h hlt => .exhausted b h hlt

/-! ## Names, builtins and values of functions -/

/-- What comes of a name that is looked up in a scope and in those around it. -/
def Focus.ofLookup (h : Heap) (scope : ScopeId) (name : String) : Focus :=
  match h.lookup scope name with
  | some v => .value v
  | none => Action.unbound name

/-- In a closed heap, the links lead to the end. -/
theorem leadsTo_lookup (c : Context) (hm : m.heap.Closed) (scope : ScopeId) (name : String) :
    (c.moment (.act (.lookup name scope)) m).LeadsTo
      (c.moment (Focus.ofLookup m.heap scope name) m) := by
  refine .step ?_
  show (c.moment (Action.find m.heap name scope) m).LeadsTo _
  unfold Action.find Focus.ofLookup
  rw [hm.lookup_eq]
  cases hs : m.heap.scope? scope with
  | none => exact .refl _
  | some s =>
    cases hv : OrderedMap.get? s.bindings name with
    | some v =>
      simp only [Option.bind_some, hv]
      exact .refl _
    | none =>
      cases ho : s.outer with
      | none =>
        simp only [Option.bind_some, hv, ho]
        exact .refl _
      | some outer =>
        have hlt : outer.index < scope.index := hm.outer hs ho
        simp only [Option.bind_some, hv, ho, Option.none_or]
        exact leadsTo_lookup c hm outer name
termination_by scope.index

/-- What a name that is not a placeholder resolves to. -/
theorem resolve_of_named {env : ScopeId} {name : Identifier} (h : ¬name.isMissing = true)
    (m : Machine) :
    Eval.resolve env name m = match m.heap.lookup env name.name with
      | some v => .ok v m
      | none =>
        match Builtin.ofName? name.name with
        | some b => .ok (.builtin b) m
        | none => .error (.error (.unbound name.name)) m := by
  rw [Eval.resolve, if_neg h]
  show (match m.heap.lookup env name.name with | some v => _ | none => _ : Eval Value) m = _
  cases m.heap.lookup env name.name with
  | some v => rfl
  | none => cases Builtin.ofName? name.name <;> rfl

/-- A variable has the value that the steps find. -/
theorem follows_identifier (hm : m.heap.Closed) (name : Identifier) :
    (c.moment (.task (.expr (.identifier name))) m).Follows bound c .value
      (Eval.resolve c.env name m) := by
  refine .step ?_
  show Follows bound ⟨(Expr.first c.env (.identifier name)).1, c.env,
    (Expr.first c.env (.identifier name)).2 ++ c.pending, c.callers, m⟩ c .value _
  rw [Expr.first]
  by_cases hmissing : name.isMissing = true
  · rw [if_pos hmissing, Eval.resolve, if_pos hmissing]
    exact .fault _
  · rw [if_neg hmissing, resolve_of_named hmissing]
    refine .of_leadsTo (leadsTo_lookup c hm c.env name.name) ?_
    unfold Focus.ofLookup
    cases m.heap.lookup c.env name.name with
    | some v => exact .ok (.refl _)
    | none =>
      unfold Action.unbound
      cases Builtin.ofName? name.name with
      | some b => exact .ok (.refl _)
      | none => exact .raise _

theorem run_ne_exhausted (b : Builtin) (args : List Value) (m n : Machine) :
    b.run args m ≠ .error .exhausted n := by
  have hdoes := Builtin.does_run b args
  generalize b.run args = r at hdoes
  cases hdoes <;> exact nofun

/-- Parameters are bound one after another, and then the frame is pushed. -/
theorem follows_bindParameters (scope : ScopeId) (frame : CallFrame) (body : Block) :
    ∀ (ps : List Identifier) (args : List Value) (m : Machine),
      (c.moment (.act (.bind scope ps args frame body)) m).Follows bound c
        (fun _ => .enter scope frame body) (bindParameters scope ps args m)
  | [], _, _ => .ok ⟨1, rfl⟩
  | _ :: _, [], _ => .ok ⟨1, rfl⟩
  | p :: ps, v :: vs, m => by
    refine .step ?_
    rw [bindParameters]
    by_cases hmissing : p.isMissing = true
    · rw [if_pos hmissing]
      show (Moment.perform _ _).Follows bound c _ _
      rw [perform_of_error (by rw [Action.effect, if_pos hmissing]; rfl)]
      exact .fault _
    · rw [if_neg hmissing]
      show (Moment.perform _ _).Follows bound c _ _
      rw [perform_of_ok (by rw [Action.effect, if_neg hmissing]; rfl)]
      exact follows_bindParameters scope frame body ps vs _

/-- The body of a call is begun if its frame is not refused. -/
theorem next_enter (c : Context) (scope : ScopeId) (frame : CallFrame) (body : Block)
    (m : Machine) :
    (c.moment (.enter scope frame body) m).next =
      match m.calls.push frame with
      | .error f => c.moment (.unwind (.fault f)) m
      | .ok calls =>
        (c.call scope).moment (.task (.stmts body.statements .null)) { m with calls } := by
  show Moment.enter scope frame body _ = _
  unfold Moment.enter
  show (match m.calls.push frame with | .error f => _ | .ok calls => _) = _
  cases m.calls.push frame <;> rfl

/-- The body of a call is run with a frame on the stack, and the frame is popped behind it. -/
theorem follows_inFrame {scope : ScopeId} {frame : CallFrame} {body : Block} {r : Eval Value}
    (hc : (c.moment (.enter scope frame body) m).Closed)
    (hbody : ∀ n, ((c.call scope).moment (.task (.stmts body.statements .null)) n).Closed →
      ((c.call scope).moment (.task (.stmts body.statements .null)) n).Follows bound
        (c.call scope) .value (r n)) :
    (c.moment (.enter scope frame body) m).Follows bound c .value (Eval.inFrame frame r m) := by
  have hc' := hc.next
  refine .step ?_
  rw [next_enter] at hc' ⊢
  unfold Eval.inFrame
  cases hpush : m.calls.push frame with
  | error f => exact .fault f
  | ok calls =>
    simp only [hpush] at hc' ⊢
    exact .atBoundary (fun _ _ => ⟨1, rfl⟩) (hbody { m with calls } hc')

/-! ## Trees -/

/-- The steps follow the calls of function values. -/
def FollowsCalls (budget : Nat) (apply : Apply) : Prop :=
  ∀ ⦃c : Context⦄ ⦃m : Machine⦄ ⦃f : FunctionLiteral⦄ ⦃scope : ScopeId⦄ ⦃frame : CallFrame⦄
    ⦃args : List Value⦄, (c.moment (.act (.call f scope frame args)) m).Closed →
      (c.moment (.act (.call f scope frame args)) m).Follows (c.callers.length + budget) c .value
        (apply f scope frame args m)

/-- The steps follow the call of any value. -/
theorem FollowsCalls.applyValue (ha : FollowsCalls budget apply) (callee : Value)
    (frame : CallFrame) (args : List Value)
    (hclosed : (c.moment (.task (.collect (.call callee frame) args [])) m).Closed) :
    (c.moment (.task (.collect (.call callee frame) args [])) m).Follows
      (c.callers.length + budget) c .value (Eval.applyValue apply callee frame args m) := by
  refine .step ?_
  cases callee with
  | function id f scope => exact ha hclosed.next
  | builtin b => exact .act (p := .run b args) rfl (run_ne_exhausted b args m)
  | _ => exact .raise _

/-- The steps follow the block that a condition chooses. -/
theorem follows_branch (c : Context) (v : Value) (m : Machine) (consequence : Block)
    (alternative : Option Block) {r s : Eval Value}
    (hclosed : (c.moment (.branch v consequence alternative) m).Closed)
    (hr : (c.moment (.task (.stmts consequence.statements .null)) m).Closed →
      (c.moment (.task (.stmts consequence.statements .null)) m).Follows bound c .value (r m))
    (hs : match alternative with
      | none => s m = .ok .null m
      | some b => (c.moment (.task (.stmts b.statements .null)) m).Closed →
        (c.moment (.task (.stmts b.statements .null)) m).Follows bound c .value (s m)) :
    (c.moment (.branch v consequence alternative) m).Follows bound c .value
      ((if v.isTruthy then r else s) m) := by
  unfold Focus.branch at hclosed ⊢
  by_cases hv : v.isTruthy = true
  · rw [if_pos hv] at hclosed
    rw [if_pos hv, if_pos hv]
    exact hr hclosed
  · rw [if_neg hv] at hclosed
    rw [if_neg hv, if_neg hv]
    cases alternative with
    | none => exact hs ▸ .ok (.refl _)
    | some b => exact hs hclosed

/-- The value of a pair is evaluated if its key can be one. -/
theorem next_key (c : Context) (k : Value) (value : Expr) (ps : List (Expr × Expr))
    (entries : HashEntries) (m : Machine) :
    ((c.push (.key value ps entries)).moment (.value k) m).next =
      match k.hashKey? with
      | none => c.moment (.unwind (.error (.badHashKey k.type))) m
      | some hashKey => (c.push (.entry hashKey k ps entries)).moment (.task (.expr value)) m := by
  show (Moment.mk (Pending.resume k _).1 _ ((Pending.resume k _).2 ++ _) _ _) = _
  rw [Pending.resume]
  cases k.hashKey? <;> rfl

/-- The value of a binding is evaluated if it has a name. -/
theorem next_letBinding (c : Context) (t : Token) (name : Identifier) (value : Expr) (m : Machine) :
    (c.moment (.task (.stmt (.letBinding t name value))) m).next =
      if name.isMissing then c.moment (.unwind (.fault (.placeholder .identifier))) m
      else (c.push (.binding name.name)).moment (.task (.expr value)) m := by
  show (Moment.mk (Stmt.first _).1 _ ((Stmt.first _).2 ++ _) _ _) = _
  rw [Stmt.first]
  cases name.isMissing <;> rfl

mutual

/-- The steps follow the evaluation of an expression. -/
theorem follows_expr (ha : FollowsCalls budget apply) : ∀ (e : Expr) (c : Context) {m : Machine},
    (c.moment (.task (.expr e)) m).Closed →
      (c.moment (.task (.expr e)) m).Follows (c.callers.length + budget) c .value
        (Eval.expr apply c.env e m)
  | .identifier name, _, _, hc => follows_identifier hc.heap name
  | .integer _ _, _, _, _ => .ok ⟨1, rfl⟩
  | .boolean _ _, _, _, _ => .ok ⟨1, rfl⟩
  | .string _ _, _, _, _ => .ok ⟨1, rfl⟩
  | .missing _, _, _, _ => .error nofun ⟨1, rfl⟩
  | .array _ elements, c, _, hc => by
    refine .step (.bind hc.next (.refl c) (follows_exprs ha elements c hc.next) fun vs n _ => ?_)
    exact .step (.act (p := .array vs) rfl nofun)
  | .hash _ ps, c, _, hc => by
    refine .step (.bind hc.next (.refl c) (follows_pairs ha ps c hc.next) fun es n _ => ?_)
    exact .step (.act (p := .hash es) rfl nofun)
  | .unary _ op right, c, _, hc => by
    have hright := follows_expr ha right (c.push (.unary op)) hc.next
    refine .step (.part _ (fun _ => rfl) hc.next hright fun v n _ => ?_)
    exact .ofExcept (c := c) (evalUnary op v)
  | .binary _ left op right, c, _, hc => by
    have hleft := follows_expr ha left (c.push (.left op right)) hc.next
    refine .step (.part _ (fun _ => rfl) hc.next hleft fun v n hn => ?_)
    have hright := follows_expr ha right (c.push (.right v op)) hn
    refine .part _ (fun _ => rfl) hn hright fun w l _ => ?_
    exact .ofExcept (c := c) (evalBinary v op w)
  | .conditional _ condition consequence none, c, _, hc => by
    have hcondition := follows_expr ha condition (c.push (.condition consequence none)) hc.next
    refine .step (.part _ (fun _ => rfl) hc.next hcondition fun v n hn => ?_)
    exact follows_branch c v n consequence none hn (follows_block ha consequence c) rfl
  | .conditional _ condition consequence (some alternative), c, _, hc => by
    have hcondition :=
      follows_expr ha condition (c.push (.condition consequence (some alternative))) hc.next
    refine .step (.part _ (fun _ => rfl) hc.next hcondition fun v n hn => ?_)
    exact follows_branch c v n consequence (some alternative) hn
      (follows_block ha consequence c) (follows_block ha alternative c)
  | .function f, _, _, _ => .step (.act (p := .function f) rfl nofun)
  | .call token callee arguments, c, _, hc => by
    let frame : CallFrame := ⟨Eval.calleeName callee, token.position⟩
    have hcallee := follows_expr ha callee (c.push (.callee frame arguments)) hc.next
    refine .step (.part _ (fun _ => rfl) hc.next hcallee fun v n hn => ?_)
    refine .bind hn (.refl c) (follows_exprs ha arguments c hn) fun vs l hl => ?_
    exact ha.applyValue v frame vs hl
  | .index _ left i, c, _, hc => by
    have hleft := follows_expr ha left (c.push (.indexed i)) hc.next
    refine .step (.part _ (fun _ => rfl) hc.next hleft fun v n hn => ?_)
    have hright := follows_expr ha i (c.push (.index v)) hn
    refine .part _ (fun _ => rfl) hn hright fun w l _ => ?_
    exact .ofExcept (c := c) (evalIndex v w)

/-- The steps collect the values of expressions behind those that are there. -/
theorem follows_exprs (ha : FollowsCalls budget apply) : ∀ (es : List Expr) (c : Context)
    {purpose : Purpose} {done : List Value} {m : Machine},
    (c.moment (.task (.collect purpose done es)) m).Closed →
      (c.moment (.task (.collect purpose done es)) m).Follows (c.callers.length + budget) c
        (fun vs => .task (.collect purpose (done ++ vs) [])) (Eval.exprs apply c.env es m)
  | [], _, _, done, _, _ => by
    refine .ok ?_
    rw [List.append_nil]
    exact .refl _
  | e :: es, c, purpose, done, _, hc => by
    have hfirst := follows_expr ha e (c.push (.collect purpose done es)) hc.next
    refine .step (.part _ (fun _ => rfl) hc.next hfirst fun v n hn => ?_)
    refine .bind hn (.refl c) (follows_exprs ha es c hn) fun vs l _ => .ok ?_
    rw [List.append_assoc]
    exact .refl _

/-- The steps follow the pairs of a hash. -/
theorem follows_pairs (ha : FollowsCalls budget apply) : ∀ (ps : List (Expr × Expr)) (c : Context)
    {entries : HashEntries} {m : Machine}, (c.moment (.task (.pairs ps entries)) m).Closed →
      (c.moment (.task (.pairs ps entries)) m).Follows (c.callers.length + budget) c
        (fun es => .task (.pairs [] es)) (Eval.pairs apply c.env ps entries m)
  | [], _, _, _, _ => .ok (.refl _)
  | (key, value) :: ps, c, entries, _, hc => by
    have hfirst := follows_expr ha key (c.push (.key value ps entries)) hc.next
    refine .step (.part _ (fun _ => rfl) hc.next hfirst fun k n hn => ?_)
    rw [next_key] at hn ⊢
    cases hkey : k.hashKey? with
    | none =>
      exact .raise _
    | some hashKey =>
      simp only [hkey] at hn ⊢
      have hsecond := follows_expr ha value (c.push (.entry hashKey k ps entries)) hn
      refine .part _ (fun _ => rfl) hn hsecond fun v l hl => ?_
      exact follows_pairs ha ps c hl

/-- The steps follow the evaluation of a block. -/
theorem follows_block (ha : FollowsCalls budget apply) : ∀ (b : Block) (c : Context) {m : Machine},
    (c.moment (.task (.stmts b.statements .null)) m).Closed →
      (c.moment (.task (.stmts b.statements .null)) m).Follows (c.callers.length + budget) c .value
        (Eval.block apply c.env b m)
  | ⟨_, statements⟩, c, _, hc => follows_stmts ha statements c hc

/-- The steps follow the evaluation of statements. -/
theorem follows_stmts (ha : FollowsCalls budget apply) : ∀ (ss : List Stmt) (c : Context)
    {last : Value} {m : Machine}, (c.moment (.task (.stmts ss last)) m).Closed →
      (c.moment (.task (.stmts ss last)) m).Follows (c.callers.length + budget) c .value
        (Eval.stmts apply c.env ss last m)
  | [], _, _, _, _ => .ok ⟨1, rfl⟩
  | s :: ss, c, _, _, hc => by
    have hfirst := follows_stmt ha s (c.push (.stmts ss)) hc.next
    refine .step (.part _ (fun _ => rfl) hc.next hfirst fun v n hn => ?_)
    exact follows_stmts ha ss c hn

/-- The steps follow the evaluation of a statement. -/
theorem follows_stmt (ha : FollowsCalls budget apply) : ∀ (s : Stmt) (c : Context) {m : Machine},
    (c.moment (.task (.stmt s)) m).Closed →
      (c.moment (.task (.stmt s)) m).Follows (c.callers.length + budget) c .value
        (Eval.stmt apply c.env s m)
  | .letBinding t name value, c, m, hc => by
    have hc' := hc.next
    refine .step ?_
    rw [next_letBinding] at hc' ⊢
    rw [Eval.stmt]
    by_cases hmissing : name.isMissing = true
    · rw [if_pos hmissing, if_pos hmissing]
      exact .fault _
    · rw [if_neg hmissing] at hc'
      rw [if_neg hmissing, if_neg hmissing]
      have hvalue := follows_expr ha value (c.push (.binding name.name)) hc'
      refine .part _ (fun _ => rfl) hc' hvalue fun v n _ => ?_
      exact .ok ⟨1, rfl⟩
  | .returning _ value, c, _, hc => by
    have hvalue := follows_expr ha value (c.push .returning) hc.next
    refine .step (.part _ (fun _ => rfl) hc.next hvalue fun v n _ => ?_)
    exact .error nofun (.refl _)
  | .expression _ e, c, _, hc => .step (follows_expr ha e c hc.next)
  | .block b, c, _, hc => .step (follows_block ha b c hc.next)
  | .missing _, _, _, _ => .error nofun ⟨1, rfl⟩

end

/-! ## Calls -/

/-- The steps follow a call if they follow its body. -/
theorem followsCalls_callWith {body : ScopeId → Block → Eval Value}
    (hbody : ∀ (c : Context) (scope : ScopeId) (b : Block) (n : Machine),
      ((c.call scope).moment (.task (.stmts b.statements .null)) n).Closed →
        ((c.call scope).moment (.task (.stmts b.statements .null)) n).Follows
          (c.callers.length + budget) (c.call scope) .value (body scope b n)) :
    FollowsCalls budget (callWith body) := by
  intro c m f scope frame args hc
  have hc' := hc.next
  refine .step ?_
  unfold callWith
  by_cases harity : f.arity ≠ args.length
  · rw [if_pos harity]
    show (Moment.perform _ _).Follows _ c _ _
    rw [perform_of_error (by rw [Action.effect, if_pos harity]; rfl)]
    exact .raise _
  · rw [if_neg harity]
    have hnext : (c.moment (.act (.call f scope frame args)) m).next =
        c.moment (.act (.bind ⟨m.heap.scopes.size⟩ f.parameters args frame f.body))
          { m with heap := (m.heap.newScope (some scope)).2 } :=
      perform_of_ok (by rw [Action.effect, if_neg harity]; rfl)
    rw [hnext] at hc' ⊢
    show Follows _ _ c .value ((bindParameters ⟨m.heap.scopes.size⟩ f.parameters args >>=
      fun _ => Eval.inFrame frame (body _ f.body)) _)
    refine .bind hc' (.refl c) (follows_bindParameters _ frame f.body f.parameters args _) ?_
    exact fun _ _ hn => follows_inFrame hn fun l hl => hbody c _ f.body l hl

/-- The steps follow the calls of function values, whatever the budget. -/
theorem followsCalls_applyFunction : ∀ budget, FollowsCalls budget (applyFunction budget)
  | 0 => followsCalls_callWith fun c _ _ n _ =>
    -- The body is not run by the interpreter, but its frame is under way.
    .exhausted _ (.refl _) (Nat.lt_succ_self c.callers.length)
  | budget + 1 => followsCalls_callWith fun c scope b n hn => by
    have hblock := follows_block (followsCalls_applyFunction budget) b (c.call scope) hn
    have hbound : (c.call scope).callers.length + budget = c.callers.length + (budget + 1) :=
      Nat.add_right_comm c.callers.length 1 budget
    rwa [hbound] at hblock

/-! ## Nodes -/

/-- A program ends a `return`. -/
theorem Follows.runProgram {env : ScopeId} {p : Program}
    (h : a.Follows bound ⟨env, [.program], []⟩ .value
      (Eval.stmts apply env p.statements .null m)) :
    a.Follows bound ⟨env, [], []⟩ .value (runProgram apply env p m) := by
  have hended : a.Follows bound ⟨env, [], []⟩ .value _ :=
    .atBoundary (f := id) (fun r n => ⟨1, by cases r <;> rfl⟩) h
  unfold Ember.runProgram
  generalize Eval.stmts apply env p.statements .null m = s at hended
  cases s with
  | ok v n => exact hended
  | error u n => cases u <;> exact hended

/-- The steps follow the evaluation of a node. -/
theorem follows_runNode (hm : m.heap.Closed) {env : ScopeId} (henv : m.heap.Has env) (budget : Nat)
    (node : Node) : (start m env node).Follows (0 + budget) ⟨env, [], []⟩ .value
      (runNode (applyFunction budget) env node m) := by
  have ha := followsCalls_applyFunction budget
  have hc := closed_start hm henv node
  cases node with
  | program p => exact .runProgram (follows_stmts ha p.statements ⟨env, [.program], []⟩ hc)
  | statement s => exact follows_stmt ha s ⟨env, [], []⟩ hc
  | expression e => exact follows_expr ha e ⟨env, [], []⟩ hc
  | missing => exact .error nofun (.refl _)

end Moment

namespace Machine

variable {m n : Machine} {env : ScopeId} {node : Node} {o : Outcome} {budget : Nat}

/-- A budget that is not used up is enough to tell how an evaluation ends. -/
theorem finishes_of_evalWith (hm : m.heap.Closed) (henv : m.heap.Has env)
    (h : m.evalWith budget env node = (o, n)) (ho : o ≠ .exhausted) :
    m.Finishes env node o n := by
  have hfollows := Moment.follows_runNode hm henv budget node
  unfold evalWith at h
  generalize runNode (applyFunction budget) env node m = r at h hfollows
  cases hfollows with
  | ok hsteps =>
    obtain ⟨k, hk⟩ := hsteps
    exact ⟨k, by rw [hk]; exact congrArg some h⟩
  | error hu hsteps =>
    obtain ⟨k, hk⟩ := hsteps
    exact ⟨k, by rw [hk]; exact congrArg some h⟩
  | exhausted b hsteps hlt =>
    cases h
    exact absurd rfl ho

/-- As many calls as there are steps are budget enough. -/
theorem Finishes.exists_evalWith (hm : m.heap.Closed) (henv : m.heap.Has env)
    (h : m.Finishes env node o n) :
    ∃ budget, m.evalWith budget env node = (o, n) ∧ o ≠ .exhausted := by
  obtain ⟨k, hk⟩ := h
  have hne : (m.evalWith k env node).1 ≠ .exhausted := by
    have hfollows := Moment.follows_runNode hm henv k node
    unfold evalWith
    generalize runNode (applyFunction k) env node m = r at hfollows
    cases hfollows with
    | ok _ => exact nofun
    | @error u _ hu _ =>
      cases u with
      | exhausted => exact absurd rfl hu
      | _ => exact nofun
    | exhausted b hsteps hlt =>
      obtain ⟨j, rfl⟩ := hsteps
      -- So many callers take more steps than the evaluation has.
      have hle := Moment.length_callers_iterate_le (Moment.start m env node) j
      rw [Moment.callers_start, List.length_nil] at hle
      have hkj : k ≤ j := by omega
      obtain ⟨_, -, -, hcallers, -⟩ := Moment.exists_of_outcome? hk
      rw [Moment.iterate_of_le hk hkj, hcallers] at hlt
      exact absurd hlt (Nat.not_lt_zero _)
  have hfinishes := finishes_of_evalWith hm henv rfl hne
  obtain ⟨rfl, rfl⟩ := Finishes.unique hfinishes ⟨k, hk⟩
  exact ⟨k, rfl, hne⟩

/-- An evaluation ends as it does with a budget that is not used up. -/
theorem finishes_iff (hm : m.heap.Closed) (henv : m.heap.Has env) :
    m.Finishes env node o n ↔ ∃ budget, m.evalWith budget env node = (o, n) ∧ o ≠ .exhausted := by
  constructor
  · exact fun h => h.exists_evalWith hm henv
  · rintro ⟨budget, h, ho⟩
    exact finishes_of_evalWith hm henv h ho

end Machine

end Ember
