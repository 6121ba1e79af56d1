import Ember.Proofs.Eval.Pairing

/-!
# Two evaluations side by side

A coupling says which machines correspond, which values do, what may stand in the trees that are
evaluated on the first machine, and which tokens stand in these trees on the second. It is `Lawful`
when the primitive steps of evaluation lead from machines that correspond to machines that do:
looking a name up, binding one, giving out an identity, making a scope, pushing and popping a frame.
Whether printing does so, too, is asked for apart (`Prints`): only `puts` prints.

Evaluating a tree on two machines that correspond then comes to answers that correspond, and to
machines that do (`Lawful.expr`, `Lawful.stmts`, `Lawful.evalWith`). So what two evaluations have in
common is shown by a look at the primitive steps. The induction over the tree is done here, once.

Often the second machine is made from the first by a change that can be carried out before an
evaluation or after it (`Coupling.ofMap`). Then the evaluations come to the same values but for the
tokens in them (`evalWith_ofMap`).
-/

namespace Ember

theorem Eval.calleeName_mapTokens (f : Token → Token) (e : Expr) :
    calleeName (e.mapTokens f) = calleeName e := by
  cases e with
  | conditional _ _ _ alternative => cases alternative <;> rfl
  | _ => rfl

/-! ## Answers -/

/-- Both unwind in the same way. -/
inductive Unwind.Corresponds (ρ : Pairing) (like : FunctionLiteral → FunctionLiteral → Prop) :
    Unwind → Unwind → Prop
  | returning {v w : Value} (h : v.Corresponds ρ like w) :
      Corresponds ρ like (.returning v) (.returning w)
  | error (e : RuntimeError) : Corresponds ρ like (.error e) (.error e)
  | fault (f : Fault) : Corresponds ρ like (.fault f) (.fault f)
  | exhausted : Corresponds ρ like .exhausted .exhausted

/-- Both evaluations ended in the same way. -/
inductive Outcome.Corresponds (ρ : Pairing) (like : FunctionLiteral → FunctionLiteral → Prop) :
    Outcome → Outcome → Prop
  | value {v w : Value} (h : v.Corresponds ρ like w) : Corresponds ρ like (.value v) (.value w)
  | fault (f : Fault) : Corresponds ρ like (.fault f) (.fault f)
  | exhausted : Corresponds ρ like .exhausted .exhausted

/-- Both evaluations ended in the same way, with values that are the same. -/
abbrev Outcome.Same (ρ : Pairing) (k : Shape) : Outcome → Outcome → Prop :=
  Outcome.Corresponds ρ (FunctionLiteral.Same k)

/-- Nothing stands in the node that the shape does not allow. -/
def Node.HasShape (k : Shape) : Node → Prop
  | .program p => BodyHasShape k p.statements
  | .statement s => s.HasShape k
  | .expression e => e.HasShape k
  | .missing => True

theorem Node.hasShape_any (node : Node) : node.HasShape .any := by
  cases node with
  | program p => exact bodyHasShape_any p.statements
  | statement s => exact s.hasShape_any
  | expression e => exact e.hasShape_any
  | missing => trivial

/-- What two evaluations have in common. -/
structure Coupling where
  pairing : Pairing
  /-- What may stand in the trees that are evaluated on the first machine. -/
  shape : Shape
  /-- What stands for a token in the trees on the second machine. -/
  token : Token → Token
  /-- Which machines correspond. -/
  Rel : Machine → Machine → Prop

namespace Coupling

variable {C : Coupling} {α β α' β' : Type} {m m' : Machine} {i j : ScopeId} {v w : Value}

variable (C) in
/-- The second literal is the first one, with the tokens of the second machine. -/
def Like (f g : FunctionLiteral) : Prop := f.HasShape C.shape ∧ g = f.mapTokens C.token

theorem Like.render {f g : FunctionLiteral} (h : C.Like f g) : g.render = f.render := by
  rw [h.2, f.render_mapTokens]

variable (C) in
/-- Values that correspond. -/
abbrev Same : Value → Value → Prop := Value.Corresponds C.pairing C.Like

variable (C) in
/-- Entries of hashes that correspond. -/
abbrev SameEntry : HashKey × Value × Value → HashKey × Value × Value → Prop :=
  EntryCorresponds C.pairing C.Like

variable (C) in
/-- The frames have the same name, and the places of a token and of what stands for it. -/
inductive SameFrame : CallFrame → CallFrame → Prop
  | intro (name : String) (token : Token) :
      SameFrame ⟨name, token.position⟩ ⟨name, (C.token token).position⟩

variable (C) in
/-- The second node is the first one, with the tokens of the second machine. -/
inductive SameNode : Node → Node → Prop
  | program {p q : Program} (hp : BodyHasShape C.shape p.statements)
      (hq : q.statements = p.statements.map (Stmt.mapTokens C.token)) :
      SameNode (.program p) (.program q)
  | statement {s : Stmt} (hs : s.HasShape C.shape) :
      SameNode (.statement s) (.statement (s.mapTokens C.token))
  | expression {e : Expr} (he : e.HasShape C.shape) :
      SameNode (.expression e) (.expression (e.mapTokens C.token))
  | missing : SameNode .missing .missing

/-! ### Where the tokens stay what they are -/

section SameTokens

variable (htoken : C.token = id)

include htoken

theorem like_eq_same : C.Like = FunctionLiteral.Same C.shape := by
  funext f g
  rw [Like, htoken, f.mapTokens_id, FunctionLiteral.Same]

theorem SameFrame.eq {f g : CallFrame} (h : C.SameFrame f g) : f = g := by
  cases h with
  | intro name token => rw [htoken, id]

/-- A node stands for itself. -/
theorem SameNode.of_hasShape {node : Node} (h : node.HasShape C.shape) : C.SameNode node node := by
  cases node with
  | program p =>
    refine .program h ?_
    rw [htoken, ← mapTokensBody_eq_map, mapTokensBody_id]
  | statement s =>
    have hsame : C.SameNode (.statement s) (.statement (s.mapTokens C.token)) := .statement h
    rwa [htoken, s.mapTokens_id] at hsame
  | expression e =>
    have hsame : C.SameNode (.expression e) (.expression (e.mapTokens C.token)) := .expression h
    rwa [htoken, e.mapTokens_id] at hsame
  | missing => exact .missing

end SameTokens

/-! ### Steps that go together -/

variable (C) in
/-- Two steps ended alike, with answers as `post` says. -/
inductive Alike (post : α → β → Prop) :
    EStateM.Result Unwind Machine α → EStateM.Result Unwind Machine β → Prop
  | ok {a : α} {b : β} {n n' : Machine} (h : post a b) (hn : C.Rel n n') :
      Alike post (.ok a n) (.ok b n')
  | error {u u' : Unwind} {n n' : Machine} (h : u.Corresponds C.pairing C.Like u')
      (hn : C.Rel n n') : Alike post (.error u n) (.error u' n')

variable (C) in
/-- From machines that correspond, the two steps end alike. -/
def InStep (post : α → β → Prop) (r : Eval α) (s : Eval β) : Prop :=
  ∀ ⦃m m'⦄, C.Rel m m' → C.Alike post (r m) (s m')

variable (C) in
/-- The primitive steps lead from machines that correspond to machines that do. -/
structure Lawful : Prop where
  lookup : ∀ {m m' i j name}, C.Rel m m' → C.pairing.scope i j → C.shape.name name →
    Option.Rel C.Same (m.heap.lookup i name.name) (m'.heap.lookup j name.name)
  set : ∀ {m m' i j name v w}, C.Rel m m' → C.pairing.scope i j → C.shape.name name →
    C.Same v w → C.Rel { m with heap := m.heap.set i name.name v }
      { m' with heap := m'.heap.set j name.name w }
  identity : ∀ {m m'}, C.Rel m m' →
    C.pairing.identity m.heap.freshIdentity.1 m'.heap.freshIdentity.1 ∧
      C.Rel { m with heap := m.heap.freshIdentity.2 } { m' with heap := m'.heap.freshIdentity.2 }
  newScope : ∀ {m m' i j}, C.Rel m m' → C.pairing.scope i j →
    C.pairing.scope (m.heap.newScope (some i)).1 (m'.heap.newScope (some j)).1 ∧
      C.Rel { m with heap := (m.heap.newScope (some i)).2 }
        { m' with heap := (m'.heap.newScope (some j)).2 }
  /-- A frame is pushed in both or refused in both. -/
  pushFrame : ∀ {m m' f g}, C.Rel m m' → C.SameFrame f g →
    Agree (fun calls calls' => C.Rel { m with calls } { m' with calls := calls' })
      (m.calls.push f) (m'.calls.push g)
  popFrame : ∀ {m m'}, C.Rel m m' → C.Rel (Eval.popFrame m) (Eval.popFrame m')

variable (C) in
/-- A line may be printed on both machines. -/
def Prints : Prop :=
  ∀ ⦃m m'⦄ (line : String), C.Rel m m' →
    C.Rel { m with printer := m.printer.println line }
      { m' with printer := m'.printer.println line }

/-! ## Steps -/

namespace InStep

variable {post : α → β → Prop} {post' : α' → β' → Prop} {r : Eval α} {s : Eval β}

theorem pure {a : α} {b : β} (h : post a b) :
    C.InStep post (Pure.pure a) (Pure.pure b) :=
  fun _ _ hm => .ok h hm

theorem throw {u u' : Unwind} (h : u.Corresponds C.pairing C.Like u') :
    C.InStep post (MonadExcept.throw u : Eval α) (MonadExcept.throw u' : Eval β) :=
  fun _ _ hm => .error h hm

/-- One step after another. -/
theorem bind (hr : C.InStep post r s) {f : α → Eval α'} {g : β → Eval β'}
    (hf : ∀ a b, post a b → C.InStep post' (f a) (g b)) :
    C.InStep post' (r >>= f) (s >>= g) := by
  intro m m' hm
  show C.Alike post' (EStateM.bind r f m) (EStateM.bind s g m')
  unfold EStateM.bind
  have hresults := hr hm
  generalize r m = x, s m' = y at hresults
  cases hresults with
  | ok h hn => exact hf _ _ h hn
  | error h hn => exact .error h hn

theorem ofExcept {x : Except RuntimeError α} {y : Except RuntimeError β} (h : Agree post x y) :
    C.InStep post (Eval.ofExcept x) (Eval.ofExcept y) := by
  cases h with
  | ok h => exact pure h
  | error e => exact throw (.error e)

/-- A name is asked for first, in both. -/
theorem named (name : Identifier) (h : C.InStep post r s) :
    C.InStep post
      (if name.isMissing = true
        then (MonadExcept.throw (.fault (.placeholder .identifier)) : Eval Unit) >>= fun _ => r
        else r)
      (if name.isMissing = true
        then (MonadExcept.throw (.fault (.placeholder .identifier)) : Eval Unit) >>= fun _ => s
        else s) := by
  split
  · exact fun _ _ hm => .error (.fault _) hm
  · exact h

end InStep

namespace Lawful

theorem bindName (hC : C.Lawful) {name : Identifier} (hij : C.pairing.scope i j)
    (hname : C.shape.name name) (hv : C.Same v w) :
    C.InStep (fun _ _ => True) (Eval.bindName i name.name v) (Eval.bindName j name.name w) :=
  fun _ _ hm => .ok trivial (hC.set hm hij hname hv)

theorem allocate (hC : C.Lawful) {make make' : Identity → Value}
    (hmake : ∀ {id id'}, C.pairing.identity id id' → C.Same (make id) (make' id')) :
    C.InStep C.Same (Eval.allocate make) (Eval.allocate make') := by
  intro m m' hm
  obtain ⟨hid, hm⟩ := hC.identity hm
  exact .ok (hmake hid) hm

theorem array (hC : C.Lawful) {vs ws : List Value} (h : List.Forall₂ C.Same vs ws) :
    C.InStep C.Same (Eval.allocate (.array · vs)) (Eval.allocate (.array · ws)) :=
  hC.allocate fun hid => .array hid h

/-- A variable has values that correspond, or there is the same error. -/
theorem resolve (hC : C.Lawful) {name : Identifier} (hij : C.pairing.scope i j)
    (hname : C.shape.name name) :
    C.InStep C.Same (Eval.resolve i name) (Eval.resolve j (name.mapTokens C.token)) := by
  have hget : C.InStep C.Rel (get : Eval Machine) (get : Eval Machine) := fun _ _ hm => .ok hm hm
  refine .named name (hget.bind fun m m' hm => ?_)
  have hsame : (name.mapTokens C.token).name = name.name := rfl
  rw [hsame]
  have hlookup := hC.lookup hm hij hname
  generalize m.heap.lookup i name.name = o at hlookup ⊢
  generalize m'.heap.lookup j name.name = o' at hlookup ⊢
  cases hlookup with
  | some hv => exact .pure hv
  | none =>
    cases Builtin.ofName? name.name with
    | some b => exact .pure (.plain rfl)
    | none => exact .throw (.error _)

theorem inFrame (hC : C.Lawful) {f g : CallFrame} (hframe : C.SameFrame f g)
    {body body' : Eval Value} (h : C.InStep C.Same body body') :
    C.InStep C.Same (Eval.inFrame f body) (Eval.inFrame g body') := by
  intro m m' hm
  have hpush := hC.pushFrame hm hframe
  unfold Eval.inFrame
  generalize m.calls.push f = x, m'.calls.push g = y at hpush
  cases hpush with
  | error fault => exact .error (.fault fault) hm
  | @ok calls calls' hcalls =>
    have hbody := h hcalls
    dsimp only
    generalize body { m with calls } = x, body' { m' with calls := calls' } = y at hbody
    cases hbody with
    | ok hv hn => exact .ok hv (hC.popFrame hn)
    | error hu hn =>
      cases hu with
      | returning hv => exact .ok hv (hC.popFrame hn)
      | error e => exact .error (.error e) (hC.popFrame hn)
      | fault f => exact .error (.fault f) (hC.popFrame hn)
      | exhausted => exact .error .exhausted (hC.popFrame hn)

end Lawful

/-! ## Builtins -/

theorem InStep.single {vs ws : List Value} (h : List.Forall₂ C.Same vs ws) :
    C.InStep C.Same (Builtin.single vs) (Builtin.single ws) := by
  cases h with
  | nil => exact .throw (.error _)
  | cons hv h =>
    cases h with
    | nil => exact .pure hv
    | @cons _ _ vs ws _ h =>
      show C.InStep C.Same (MonadExcept.throw (.error (.builtinArity (vs.length + 2) 1)))
        (MonadExcept.throw (.error (.builtinArity (ws.length + 2) 1)))
      rw [h.length_eq]
      exact .throw (.error _)

theorem InStep.elementsOf (b : Builtin) (h : C.Same v w) :
    C.InStep (List.Forall₂ C.Same) (b.elementsOf v) (b.elementsOf w) := by
  cases h with
  | array _ h => exact .pure h
  | plain hplain => cases v <;> first | exact .throw (.error _) | cases hplain
  | _ => exact .throw (.error _)

theorem Prints.puts (hprints : C.Prints) {vs ws : List Value} (h : List.Forall₂ C.Same vs ws) :
    C.InStep (fun _ _ => True) (vs.forM fun v => Eval.println v.render)
      (ws.forM fun w => Eval.println w.render) := by
  induction h with
  | nil => exact .pure trivial
  | @cons v w vs ws hv _ ih =>
    have hprint : C.InStep (fun _ _ => True) (Eval.println v.render) (Eval.println w.render) := by
      rw [hv.render Like.render]
      exact fun _ _ hm => .ok trivial (hprints v.render hm)
    exact hprint.bind fun _ _ _ => ih

namespace Lawful

theorem push (hC : C.Lawful) {vs ws : List Value} (h : List.Forall₂ C.Same vs ws) :
    C.InStep C.Same (Builtin.push.run vs) (Builtin.push.run ws) := by
  cases h with
  | nil => exact .throw (.error _)
  | cons hv h =>
    cases h with
    | nil => exact .throw (.error _)
    | cons hnew h =>
      cases h with
      | nil =>
        refine (InStep.elementsOf .push hv).bind fun es fs hes => hC.array ?_
        exact List.rel_append hes (.cons hnew .nil)
      | @cons _ _ vs ws _ h =>
        show C.InStep C.Same (MonadExcept.throw (.error (.builtinArity (vs.length + 3) 2)))
          (MonadExcept.throw (.error (.builtinArity (ws.length + 3) 2)))
        rw [h.length_eq]
        exact .throw (.error _)

/-- A builtin makes the same of arguments that are the same, and no builtin but `puts` prints. -/
theorem run (hC : C.Lawful) {b : Builtin} (hprints : b = .puts → C.Prints) {vs ws : List Value}
    (h : List.Forall₂ C.Same vs ws) : C.InStep C.Same (b.run vs) (b.run ws) := by
  cases b with
  | len =>
    refine (InStep.single h).bind fun v w hv => ?_
    cases hv with
    | @array _ _ vs ws _ h =>
      show C.InStep C.Same (Pure.pure (.integer (ofLength vs.length)))
        (Pure.pure (.integer (ofLength ws.length)))
      rw [h.length_eq]
      exact .pure (.plain rfl)
    | plain hplain =>
      cases v with
      | string _ => exact .pure (.plain rfl)
      | array _ _ => cases hplain
      | _ => exact .throw (.error _)
    | _ => exact .throw (.error _)
  | first =>
    refine (InStep.single h).bind fun v w hv => (InStep.elementsOf .first hv).bind fun _ _ hes => ?_
    exact .pure (Value.corresponds_getD (rel_head? hes))
  | last =>
    refine (InStep.single h).bind fun v w hv => (InStep.elementsOf .last hv).bind fun _ _ hes => ?_
    exact .pure (Value.corresponds_getD (rel_getLast? hes))
  | rest =>
    refine (InStep.single h).bind fun v w hv => (InStep.elementsOf .rest hv).bind fun _ _ hes => ?_
    cases hes with
    | nil => exact .pure (.plain rfl)
    | cons _ hes => exact hC.array hes
  | push => exact hC.push h
  | puts => exact ((hprints rfl).puts h).bind fun _ _ _ => .pure (.plain rfl)

end Lawful

/-! ## Trees -/

variable (C) in
/-- Lines are printed in step, and function values that correspond are called in step. -/
structure CallsInStep (apply : Apply) : Prop where
  prints : C.Prints
  call : ∀ ⦃id id' f g s s' frame frame' vs ws⦄,
    C.Same (.function id f s) (.function id' g s') → C.SameFrame frame frame' →
      List.Forall₂ C.Same vs ws → C.InStep C.Same (apply f s frame vs) (apply g s' frame' ws)

namespace Lawful

variable {apply : Apply}

theorem applyValue (hC : C.Lawful) (ha : C.CallsInStep apply) (hv : C.Same v w)
    {frame frame' : CallFrame} (hframe : C.SameFrame frame frame') {vs ws : List Value}
    (h : List.Forall₂ C.Same vs ws) :
    C.InStep C.Same (Eval.applyValue apply v frame vs) (Eval.applyValue apply w frame' ws) := by
  cases hv with
  | function hid hf hscope => exact ha.call (.function hid hf hscope) hframe h
  | plain hplain =>
    cases v with
    | builtin b => exact hC.run (fun _ => ha.prints) h
    | function _ _ _ => cases hplain
    | _ => exact .throw (.error _)
  | _ => exact .throw (.error _)

mutual

/-- An expression is evaluated in step. -/
theorem expr (hC : C.Lawful) (ha : C.CallsInStep apply) (hij : C.pairing.scope i j) :
    ∀ e : Expr, e.HasShape C.shape →
      C.InStep C.Same (Eval.expr apply i e) (Eval.expr apply j (e.mapTokens C.token))
  | .identifier _, hs => hC.resolve hij hs
  | .integer _ _, _ | .boolean _ _, _ | .string _ _, _ => .pure (.plain rfl)
  | .array _ elements, hs => (hC.exprs ha hij elements hs).bind fun _ _ h => hC.array h
  | .hash _ ps, hs =>
    (hC.pairs ha hij ps hs .nil).bind fun _ _ h => hC.allocate fun hid => .hash hid h
  | .unary _ op right, hs => (hC.expr ha hij right hs).bind fun _ _ hv => by
    rw [evalUnary_congr op hv]
    exact .ofExcept (agree_of_isPlain fun _ => isPlain_of_evalUnary)
  | .binary _ left op right, hs =>
    (hC.expr ha hij left hs.1).bind fun _ _ hv => (hC.expr ha hij right hs.2).bind fun _ _ hw => by
      rw [evalBinary_congr hv op hw]
      exact .ofExcept (agree_of_isPlain fun _ => isPlain_of_evalBinary)
  | .conditional _ condition consequence none, hs =>
    (hC.expr ha hij condition hs.1).bind fun _ _ hv => by
      rw [hv.isTruthy]
      split
      · exact hC.block ha hij consequence hs.2
      · exact .pure (.plain rfl)
  | .conditional _ condition consequence (some alternative), hs =>
    (hC.expr ha hij condition hs.1).bind fun _ _ hv => by
      rw [hv.isTruthy]
      split
      · exact hC.block ha hij consequence hs.2.1
      · exact hC.block ha hij alternative hs.2.2
  | .function _, hs => hC.allocate fun hid => .function hid ⟨hs, rfl⟩ hij
  | .call token callee arguments, hs =>
    (hC.expr ha hij callee hs.1).bind fun _ _ hv =>
      (hC.exprs ha hij arguments hs.2).bind fun _ _ h => by
        rw [Eval.calleeName_mapTokens]
        exact hC.applyValue ha hv (.intro _ token) h
  | .index _ left index, hs =>
    (hC.expr ha hij left hs.1).bind fun _ _ hv => (hC.expr ha hij index hs.2).bind fun _ _ hw =>
      .ofExcept (evalIndex_congr hv hw)
  | .missing _, _ => .throw (.fault _)

theorem exprs (hC : C.Lawful) (ha : C.CallsInStep apply) (hij : C.pairing.scope i j) :
    ∀ es : List Expr, ListHasShape C.shape es →
      C.InStep (List.Forall₂ C.Same) (Eval.exprs apply i es)
        (Eval.exprs apply j (mapTokensList C.token es))
  | [], _ => .pure .nil
  | e :: es, hs => (hC.expr ha hij e hs.1).bind fun _ _ hv =>
    (hC.exprs ha hij es hs.2).bind fun _ _ h => .pure (.cons hv h)

theorem pairs (hC : C.Lawful) (ha : C.CallsInStep apply) (hij : C.pairing.scope i j) :
    ∀ (ps : List (Expr × Expr)), PairsHaveShape C.shape ps → ∀ {entries entries' : HashEntries},
      List.Forall₂ C.SameEntry entries entries' →
        C.InStep (List.Forall₂ C.SameEntry) (Eval.pairs apply i ps entries)
          (Eval.pairs apply j (mapTokensPairs C.token ps) entries')
  | [], _, _, _, h => .pure h
  | (key, value) :: ps, hs, _, _, h => (hC.expr ha hij key hs.1).bind fun u u' hu => by
    rw [hu.hashKey?, hu.type]
    split
    · exact .throw (.error _)
    · next hashKey _ =>
      refine (hC.expr ha hij value hs.2.1).bind fun v v' hv => ?_
      exact hC.pairs ha hij ps hs.2.2 (forall₂_insert h hashKey hu hv)

theorem block (hC : C.Lawful) (ha : C.CallsInStep apply) (hij : C.pairing.scope i j) :
    ∀ b : Block, b.HasShape C.shape →
      C.InStep C.Same (Eval.block apply i b) (Eval.block apply j (b.mapTokens C.token))
  | ⟨_, statements⟩, hs => hC.stmts ha hij statements hs (.plain rfl)

/-- Statements are evaluated in step. -/
theorem stmts (hC : C.Lawful) (ha : C.CallsInStep apply) (hij : C.pairing.scope i j) :
    ∀ (ss : List Stmt), BodyHasShape C.shape ss → ∀ {last last' : Value}, C.Same last last' →
      C.InStep C.Same (Eval.stmts apply i ss last)
        (Eval.stmts apply j (mapTokensBody C.token ss) last')
  | [], _, _, _, hlast => .pure hlast
  | s :: ss, hs, _, _, _ => (hC.stmt ha hij s hs.1).bind fun _ _ hv => hC.stmts ha hij ss hs.2 hv

/-- A statement is evaluated in step. -/
theorem stmt (hC : C.Lawful) (ha : C.CallsInStep apply) (hij : C.pairing.scope i j) :
    ∀ s : Stmt, s.HasShape C.shape →
      C.InStep C.Same (Eval.stmt apply i s) (Eval.stmt apply j (s.mapTokens C.token))
  | .letBinding _ name value, hs => .named name <|
    (hC.expr ha hij value hs.2).bind fun _ _ hv =>
      (hC.bindName hij hs.1 hv).bind fun _ _ _ => .pure (.plain rfl)
  | .returning _ value, hs => (hC.expr ha hij value hs).bind fun _ _ hv => .throw (.returning hv)
  | .expression _ e, hs => hC.expr ha hij e hs
  | .block b, hs => hC.block ha hij b hs.2
  | .missing _, _ => .throw (.fault _)

end

/-! ## Calls -/

theorem bindParameters (hC : C.Lawful) (hij : C.pairing.scope i j) :
    ∀ (ps : List Identifier), (∀ p ∈ ps, C.shape.name p) → ∀ {vs ws : List Value},
      List.Forall₂ C.Same vs ws →
        C.InStep (fun _ _ => True) (Ember.bindParameters i ps vs)
          (Ember.bindParameters j (ps.map (Identifier.mapTokens C.token)) ws)
  | [], _, _, _, _ | _ :: _, _, _, _, .nil => .pure trivial
  | p :: ps, hps, _, _, .cons hv h => .named p <|
    (hC.bindName hij (hps p List.mem_cons_self) hv).bind fun _ _ _ =>
      hC.bindParameters hij ps (fun q hq => hps q (List.mem_cons_of_mem p hq)) h

/-- A call is carried out in step if running the body is. -/
theorem callWith (hC : C.Lawful) (hprints : C.Prints) {body : ScopeId → Block → Eval Value}
    (hbody : ∀ {i j}, C.pairing.scope i j → ∀ b : Block, b.HasShape C.shape →
      C.InStep C.Same (body i b) (body j (b.mapTokens C.token))) :
    C.CallsInStep (callWith body) := by
  refine ⟨hprints, ?_⟩
  rintro id id' ⟨token, parameters, block⟩ g s s' frame frame' vs ws hf hframe h
  obtain ⟨⟨⟨hparameters, hblock⟩, rfl⟩, hscope⟩ :
      C.Like ⟨token, parameters, block⟩ g ∧ C.pairing.scope s s' := by
    cases hf with
    | function _ hf hscope => exact ⟨hf, hscope⟩
    | plain hplain => cases hplain
  have hnew : C.InStep C.pairing.scope (Eval.onHeap (·.newScope (some s)))
      (Eval.onHeap (·.newScope (some s'))) := by
    intro m m' hm
    obtain ⟨hnew, hm⟩ := hC.newScope hm hscope
    exact .ok hnew hm
  have hrun := hnew.bind fun i j hij =>
    (hC.bindParameters hij parameters hparameters h).bind fun _ _ _ =>
      hC.inFrame hframe (hbody hij block hblock)
  unfold Ember.callWith
  rw [FunctionLiteral.arity_mapTokens, h.length_eq]
  split
  · exact fun _ _ hm => .error (.error _) hm
  · exact hrun

/-- With any budget, function values that correspond are called in step. -/
theorem applyFunction (hC : C.Lawful) (hprints : C.Prints) :
    ∀ budget, C.CallsInStep (applyFunction budget)
  | 0 => hC.callWith hprints fun _ _ _ => .throw .exhausted
  | budget + 1 => hC.callWith hprints fun hij b hb =>
    hC.block (hC.applyFunction hprints budget) hij b hb

/-- A program is evaluated in step; a `return` ends it in both. -/
theorem program (hC : C.Lawful) (ha : C.CallsInStep apply) (hij : C.pairing.scope i j)
    {p q : Program} (hp : BodyHasShape C.shape p.statements)
    (hq : q.statements = p.statements.map (Stmt.mapTokens C.token)) :
    C.InStep C.Same (runProgram apply i p) (runProgram apply j q) := by
  intro m m' hm
  have hstmts := hC.stmts ha hij p.statements hp (.plain rfl : C.Same .null .null) hm
  rw [mapTokensBody_eq_map, ← hq] at hstmts
  unfold runProgram
  generalize Eval.stmts apply i p.statements .null m = x,
    Eval.stmts apply j q.statements .null m' = y at hstmts
  cases hstmts with
  | ok hv hn => exact .ok hv hn
  | error hu hn =>
    cases hu with
    | returning hv => exact .ok hv hn
    | error e => exact .error (.error e) hn
    | fault f => exact .error (.fault f) hn
    | exhausted => exact .error .exhausted hn

variable {node node' : Node}

theorem runNode (hC : C.Lawful) (ha : C.CallsInStep apply) (hij : C.pairing.scope i j)
    (hnode : C.SameNode node node') :
    C.InStep C.Same (Ember.runNode apply i node) (Ember.runNode apply j node') := by
  cases hnode with
  | program hp hq => exact hC.program ha hij hp hq
  | statement hs => exact hC.stmt ha hij _ hs
  | expression he => exact hC.expr ha hij _ he
  | missing => exact .throw (.fault _)

/-- A node is evaluated in step: the evaluations end in the same way. -/
theorem evalWith (hC : C.Lawful) (hprints : C.Prints) (hm : C.Rel m m')
    (hij : C.pairing.scope i j) (hnode : C.SameNode node node') (budget : Nat) :
    (m.evalWith budget i node).1.Corresponds C.pairing C.Like (m'.evalWith budget j node').1 ∧
      C.Rel (m.evalWith budget i node).2 (m'.evalWith budget j node').2 := by
  have hresults := hC.runNode (hC.applyFunction hprints budget) hij hnode hm
  unfold Machine.evalWith
  generalize Ember.runNode (Ember.applyFunction budget) i node m = x,
    Ember.runNode (Ember.applyFunction budget) j node' m' = y at hresults
  cases hresults with
  | ok hv hn => exact ⟨.value hv, hn⟩
  | error hu hn =>
    cases hu with
    | returning hv => exact ⟨.value (.returnSignal hv), hn⟩
    | error e => exact ⟨.value (.error e.message), hn⟩
    | fault f => exact ⟨.fault f, hn⟩
    | exhausted => exact ⟨.exhausted, hn⟩

end Lawful

end Coupling

/-! ## A machine made from the other -/

/-- The end of an evaluation, with other tokens in its value. -/
def Outcome.mapTokens (f : Token → Token) : Outcome → Outcome
  | .value v => .value (v.mapTokens f)
  | o => o

theorem Outcome.mapTokens_id (o : Outcome) : o.mapTokens id = o := by
  cases o with
  | value v => exact congrArg Outcome.value v.mapTokens_id
  | _ => rfl

namespace Coupling

/--
The trees on the second machine have other tokens, and the machine is what `change` makes of the
first one. Apart from that everything stands for itself.
-/
def ofMap (token : Token → Token) (change : Machine → Machine) : Coupling where
  pairing := .refl
  shape := .any
  token := token
  Rel m m' := m' = change m

variable {token : Token → Token} {change : Machine → Machine} {v w : Value}

theorem same_ofMap_iff : (ofMap token change).Same v w ↔ w = v.mapTokens token := by
  constructor
  · exact fun h => h.eq_mapTokens fun hlike => hlike.2
  · rintro rfl
    exact v.corresponds_mapTokens fun f => ⟨f.hasShape_any, rfl⟩

/-- Evaluating a node on the changed machine is evaluating it and changing the machine then. -/
theorem evalWith_ofMap (hC : (ofMap token change).Lawful) (hprints : (ofMap token change).Prints)
    {node node' : Node} (hnode : (ofMap token change).SameNode node node') (m : Machine)
    (budget : Nat) (env : ScopeId) : (change m).evalWith budget env node' =
      ((m.evalWith budget env node).1.mapTokens token, change (m.evalWith budget env node).2) := by
  obtain ⟨houtcome, hmachine⟩ :=
    hC.evalWith hprints (rfl : (ofMap token change).Rel m (change m)) rfl hnode budget
  refine Prod.ext ?_ hmachine
  generalize (m.evalWith budget env node).1 = o, ((change m).evalWith budget env node').1 = o'
    at houtcome
  cases houtcome with
  | value h => exact congrArg Outcome.value (same_ofMap_iff.mp h)
  | fault f => rfl
  | exhausted => rfl

end Coupling

end Ember
