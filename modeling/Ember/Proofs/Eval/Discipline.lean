import Ember.Eval.Interpreter
import Ember.Proofs.Tree.Shape

/-!
# Disciplines of evaluation

A discipline says what holds of every machine, how a machine may change, what holds of every value
and how evaluation may unwind. It is `Lawful` in a scope when the primitive steps of evaluation keep
to it there: looking a name up, binding one, allocating, printing. Evaluating any tree of the
discipline's shape then keeps to it too (`Lawful.expr`, `Lawful.stmt`), as long as calling a
function value does (`Applies`).

So an invariant of evaluation is shown by a look at the primitive steps. The induction over the tree
is done here, once.

## Growth

What holds of a value may depend on the machine. It has to outlast every change that the discipline
allows, because a value is kept while the operands after it are evaluated.
-/

namespace Ember

/-! ## One step after another -/

namespace Eval

variable {α β : Type} {r : Eval α} {m n : Machine}

theorem bind_of_ok {a : α} (h : r m = .ok a n) (g : α → Eval β) : (r >>= g) m = g a n := by
  show EStateM.bind r g m = g a n
  unfold EStateM.bind
  rw [h]

theorem bind_of_error {u : Unwind} (h : r m = .error u n) (g : α → Eval β) :
    (r >>= g) m = .error u n := by
  show EStateM.bind r g m = .error u n
  unfold EStateM.bind
  rw [h]

theorem of_bind_ok {g : α → Eval β} {b : β} (h : (r >>= g) m = .ok b n) :
    ∃ a l, r m = .ok a l ∧ g a l = .ok b n := by
  cases hr : r m with
  | ok a l => exact ⟨a, l, rfl, (bind_of_ok hr g).symm.trans h⟩
  | error u l => cases (bind_of_error hr g).symm.trans h

end Eval

/-- The value has no parts: a scalar, `null` or a builtin. -/
def Value.isPlain : Value → Bool
  | .integer _ | .boolean _ | .string _ | .builtin _ | .null => true
  | _ => false

/-- What evaluation keeps to. -/
structure Discipline where
  /-- What may stand in the trees that are evaluated. -/
  shape : Shape
  /-- What holds of every machine. -/
  Inv : Machine → Prop
  /-- How a machine may change. -/
  Step : Machine → Machine → Prop
  /-- What holds of a value. -/
  Good : Machine → Value → Prop
  /-- How evaluation may unwind. -/
  Unwinds : Machine → Unwind → Prop

namespace Discipline

variable {D : Discipline} {α β : Type} {m n : Machine}

/-! ## Steps of evaluation -/

variable (D) in
/-- From the machine `m`, the step keeps to the discipline, and its answer is as `post` says. -/
inductive Keeps (m : Machine) (r : Eval α) (post : Machine → α → Prop) : Prop
  | ok (a : α) (n : Machine) (run : r m = .ok a n) (inv : D.Inv n) (step : D.Step m n)
      (answer : post n a)
  | error (u : Unwind) (n : Machine) (run : r m = .error u n) (inv : D.Inv n) (step : D.Step m n)
      (unwinds : D.Unwinds n u)

variable (D) in
/-- Every entry of a hash has a key that is the key of its key value, and good values. -/
def GoodEntries (m : Machine) (entries : HashEntries) : Prop :=
  ∀ key k v, (key, k, v) ∈ entries → k.hashKey? = some key ∧ D.Good m k ∧ D.Good m v

variable (D) in
/-- The primitive steps keep to the discipline in the scope `env`. -/
structure Lawful (env : ScopeId) : Prop where
  refl : ∀ m, D.Step m m
  trans : ∀ {l m n}, D.Step l m → D.Step m n → D.Step l n
  mono : ∀ {m n v}, D.Step m n → D.Good m v → D.Good n v
  plain : ∀ m {v : Value}, v.isPlain = true → D.Good m v
  element : ∀ {m id vs v}, D.Good m (.array id vs) → v ∈ vs → D.Good m v
  entry : ∀ {m id es key k v}, D.Good m (.hash id es) → (key, k, v) ∈ es → D.Good m v
  lookup : ∀ {m name v}, D.Inv m → m.heap.lookup env name = some v → D.Good m v
  bindName : ∀ {m i v}, D.Inv m → D.shape.name i → D.Good m v →
    D.Keeps m (Eval.bindName env i.name v) fun _ _ => True
  array : ∀ {m vs}, D.Inv m → (∀ v ∈ vs, D.Good m v) →
    D.Keeps m (Eval.allocate (.array · vs)) D.Good
  hash : ∀ {m es}, D.Inv m → D.GoodEntries m es → D.Keeps m (Eval.allocate (.hash · es)) D.Good
  function : ∀ {m f}, D.Inv m → f.HasShape D.shape →
    D.Keeps m (Eval.allocate (.function · f env)) D.Good
  println : ∀ {m} line, D.Inv m → D.Keeps m (Eval.println line) fun _ _ => True
  error : ∀ m e, D.Unwinds m (.error e)
  returning : ∀ {m v}, D.Good m v → D.Unwinds m (.returning v)
  placeholder : ∀ m {k}, D.shape.placeholder k → D.Unwinds m (.fault (.placeholder k))
  unnamed : ∀ m {i}, D.shape.name i → i.isMissing = true →
    D.Unwinds m (.fault (.placeholder .identifier))

variable (D) in
/-- Calling a function value keeps to the discipline. -/
def Applies (apply : Apply) : Prop :=
  ∀ ⦃m id f scope frame args⦄, D.Inv m → D.Good m (.function id f scope) →
    (∀ v ∈ args, D.Good m v) → D.Keeps m (apply f scope frame args) D.Good

namespace Lawful

variable {env : ScopeId} {r : Eval α} {f : α → Eval β} {P : Machine → α → Prop}
  {R : Machine → β → Prop}

theorem pure (h : D.Lawful env) (hm : D.Inv m) {a : α} (ha : P m a) :
    D.Keeps m (Pure.pure a) P :=
  .ok a m rfl hm (h.refl m) ha

theorem throw (h : D.Lawful env) (hm : D.Inv m) {u : Unwind} (hu : D.Unwinds m u) :
    D.Keeps m (MonadExcept.throw u : Eval α) P :=
  .error u m rfl hm (h.refl m) hu

/-- One step after another. -/
theorem bind (h : D.Lawful env) (hr : D.Keeps m r P)
    (hf : ∀ a n, D.Inv n → D.Step m n → P n a → D.Keeps n (f a) R) : D.Keeps m (r >>= f) R := by
  cases hr with
  | error u n run inv step unwinds =>
    exact .error u n (Eval.bind_of_error run f) inv step unwinds
  | ok a n run inv step answer =>
    have hbind := Eval.bind_of_ok run f
    cases hf a n inv step answer with
    | ok b l run' inv' step' answer' =>
      exact .ok b l (by rw [hbind, run']) inv' (h.trans step step') answer'
    | error u l run' inv' step' unwinds' =>
      exact .error u l (by rw [hbind, run']) inv' (h.trans step step') unwinds'

end Lawful

end Discipline

/-! ## Operators and builtins -/

theorem isPlain_of_orOverflow {a b : Int64} {op : BinaryOp} {r : Option Int64} {v : Value}
    (h : orOverflow a op b r = .ok v) : v.isPlain = true := by
  cases r with
  | none => cases h
  | some n =>
    cases h
    rfl

theorem isPlain_of_evalIntegers {a b : Int64} {op : BinaryOp} {v : Value}
    (h : evalIntegers a op b = .ok v) : v.isPlain = true := by
  cases op with
  | add | sub | mul => exact isPlain_of_orOverflow h
  | div =>
    rw [evalIntegers] at h
    split at h
    · cases h
    · exact isPlain_of_orOverflow h
  | lt | gt | eq | notEq =>
    cases h
    rfl

theorem isPlain_of_evalStrings {a b : String} {op : BinaryOp} {v : Value}
    (h : evalStrings a op b = .ok v) : v.isPlain = true := by
  cases op with
  | add | eq | notEq =>
    cases h
    rfl
  | sub | mul | div | lt | gt => cases h

/-- An operator between two operands makes a value without parts. -/
theorem isPlain_of_evalBinary {left right v : Value} {op : BinaryOp}
    (h : evalBinary left op right = .ok v) : v.isPlain = true := by
  unfold evalBinary at h
  split at h
  · cases h
  split at h
  · exact isPlain_of_evalIntegers h
  · exact isPlain_of_evalStrings h
  · split at h
    · cases h
      rfl
    · cases h
      rfl
    · split at h <;> cases h

/-- An operator before an operand makes a value without parts. -/
theorem isPlain_of_evalUnary {op : UnaryOp} {operand v : Value}
    (h : evalUnary op operand = .ok v) : v.isPlain = true := by
  unfold evalUnary at h
  split at h
  · cases h
  split at h
  · cases h
    rfl
  · split at h
    · cases h
      rfl
    · cases h
  · cases h

/-! ## Frames -/

namespace Eval

variable {frame : CallFrame} {body : Eval Value} {m n : Machine} {calls : CallStack} {v : Value}

theorem inFrame_of_push_error {f : Fault} (hpush : m.calls.push frame = .error f) :
    inFrame frame body m = .error (.fault f) m := by
  simp only [inFrame, hpush]

theorem inFrame_of_ok (hpush : m.calls.push frame = .ok calls)
    (hbody : body { m with calls } = .ok v n) : inFrame frame body m = .ok v (popFrame n) := by
  simp only [inFrame, hpush, hbody]

/-- A `return` ends at the frame. -/
theorem inFrame_of_returning (hpush : m.calls.push frame = .ok calls)
    (hbody : body { m with calls } = .error (.returning v) n) :
    inFrame frame body m = .ok v (popFrame n) := by
  simp only [inFrame, hpush, hbody]

theorem inFrame_of_error {u : Unwind} (hpush : m.calls.push frame = .ok calls)
    (hbody : body { m with calls } = .error u n) (hu : ∀ v, u ≠ .returning v) :
    inFrame frame body m = .error u (popFrame n) := by
  cases u with
  | returning v => exact absurd rfl (hu v)
  | error e => simp only [inFrame, hpush, hbody]
  | fault f => simp only [inFrame, hpush, hbody]
  | exhausted => simp only [inFrame, hpush, hbody]

end Eval

/-! ## Programs -/

section Program

variable {apply : Apply} {env : ScopeId} {p : Program} {m n : Machine} {v : Value}

theorem runProgram_of_ok (h : Eval.stmts apply env p.statements .null m = .ok v n) :
    runProgram apply env p m = .ok v n := by
  simp only [runProgram, h]

/-- A `return` among the statements ends the program. -/
theorem runProgram_of_returning
    (h : Eval.stmts apply env p.statements .null m = .error (.returning v) n) :
    runProgram apply env p m = .ok v n := by
  simp only [runProgram, h]

theorem runProgram_of_error {u : Unwind}
    (h : Eval.stmts apply env p.statements .null m = .error u n) (hu : ∀ v, u ≠ .returning v) :
    runProgram apply env p m = .error u n := by
  cases u with
  | returning v => exact absurd rfl (hu v)
  | error e => simp only [runProgram, h]
  | fault f => simp only [runProgram, h]
  | exhausted => simp only [runProgram, h]

end Program

namespace Discipline

variable {D : Discipline} {m : Machine}

namespace Lawful

variable {env : ScopeId}

/-- Where nothing is found there is `null`. -/
theorem getD (h : D.Lawful env) {o : Option Value} (ho : ∀ v, o = some v → D.Good m v) :
    D.Good m (o.getD .null) := by
  cases o with
  | none => exact h.plain m rfl
  | some v => exact ho v rfl

/-- An element access gives a part of a value, or `null`. -/
theorem of_evalIndex (h : D.Lawful env) {left index v : Value} (hleft : D.Good m left)
    (hv : evalIndex left index = .ok v) : D.Good m v := by
  unfold evalIndex at hv
  split at hv
  · next id elements i =>
    cases hv
    split
    · exact h.plain m rfl
    · exact h.getD fun w hw => h.element hleft (List.mem_of_getElem? hw)
  · next id entries key =>
    split at hv
    · cases hv
      refine h.getD fun w hw => ?_
      obtain ⟨⟨k, v⟩, hget, rfl⟩ := Option.map_eq_some_iff.mp hw
      exact h.entry hleft (OrderedMap.mem_of_get? hget)
    · cases hv
  · cases hv

theorem ofExcept (h : D.Lawful env) (hm : D.Inv m) {r : Except RuntimeError Value}
    (hr : ∀ v, r = .ok v → D.Good m v) : D.Keeps m (Eval.ofExcept r) D.Good := by
  cases r with
  | ok v => exact h.pure hm (hr v rfl)
  | error e => exact h.throw hm (h.error m e)

theorem single (h : D.Lawful env) (hm : D.Inv m) {args : List Value}
    (hargs : ∀ v ∈ args, D.Good m v) : D.Keeps m (Builtin.single args) D.Good := by
  unfold Builtin.single
  split
  · exact h.pure hm (hargs _ List.mem_cons_self)
  · exact h.throw hm (h.error m _)

theorem elementsOf (h : D.Lawful env) (hm : D.Inv m) (b : Builtin) {v : Value}
    (hv : D.Good m v) :
    D.Keeps m (Builtin.elementsOf b v) fun n es => ∀ w ∈ es, D.Good n w := by
  unfold Builtin.elementsOf
  split
  · exact h.pure hm fun w hw => h.element hv hw
  · exact h.throw hm (h.error m _)

theorem puts (h : D.Lawful env) : ∀ (args : List Value) {m : Machine}, D.Inv m →
    D.Keeps m (args.forM fun v => Eval.println v.render) fun _ _ => True
  | [], _, hm => h.pure hm trivial
  | v :: args, _, hm => by
    show D.Keeps _ (Eval.println v.render >>= fun _ => args.forM fun w => Eval.println w.render) _
    exact h.bind (h.println v.render hm) fun _ _ hn _ _ => h.puts args hn

theorem push (h : D.Lawful env) (hm : D.Inv m) : ∀ args : List Value,
    (∀ v ∈ args, D.Good m v) → D.Keeps m (Builtin.push.run args) D.Good
  | [v, new], hargs => by
    refine h.bind (h.elementsOf hm .push (hargs v List.mem_cons_self)) fun es n hn hstep hes => ?_
    have hnew : D.Good n new := h.mono hstep (hargs new (by simp))
    refine h.array hn fun w hw => ?_
    rcases List.mem_append.mp hw with hw | hw
    · exact hes w hw
    · rwa [List.mem_singleton.mp hw]
  | [], _ | [_], _ | _ :: _ :: _ :: _, _ => h.throw hm (h.error m _)

/-- A builtin keeps to the discipline. -/
theorem run (h : D.Lawful env) (hm : D.Inv m) (b : Builtin) {args : List Value}
    (hargs : ∀ v ∈ args, D.Good m v) : D.Keeps m (b.run args) D.Good := by
  cases b with
  | len =>
    refine h.bind (h.single hm hargs) fun v n hn _ _ => ?_
    split
    · exact h.pure hn (h.plain n rfl)
    · exact h.pure hn (h.plain n rfl)
    · exact h.throw hn (h.error n _)
  | first =>
    refine h.bind (h.single hm hargs) fun v n hn _ hv => ?_
    refine h.bind (h.elementsOf hn .first hv) fun es l hl _ hes => ?_
    exact h.pure hl (h.getD fun w hw => hes w (List.mem_of_head? hw))
  | last =>
    refine h.bind (h.single hm hargs) fun v n hn _ hv => ?_
    refine h.bind (h.elementsOf hn .last hv) fun es l hl _ hes => ?_
    exact h.pure hl (h.getD fun w hw => hes w (List.mem_of_getLast? hw))
  | rest =>
    refine h.bind (h.single hm hargs) fun v n hn _ hv => ?_
    refine h.bind (h.elementsOf hn .rest hv) fun es l hl _ hes => ?_
    split
    · exact h.pure hl (h.plain l rfl)
    · exact h.array hl fun w hw => hes w (List.mem_cons_of_mem _ hw)
  | push => exact h.push hm args hargs
  | puts =>
    exact h.bind (h.puts args hm) fun _ n hn _ _ => h.pure hn (h.plain n rfl)

/-! ## Trees -/

theorem goodEntries_nil (m : Machine) : D.GoodEntries m [] := nofun

theorem mono_entries (h : D.Lawful env) {n : Machine} {entries : HashEntries}
    (hstep : D.Step m n) (he : D.GoodEntries m entries) : D.GoodEntries n entries := by
  intro key k v hmem
  obtain ⟨hkey, hk, hv⟩ := he key k v hmem
  exact ⟨hkey, h.mono hstep hk, h.mono hstep hv⟩

theorem goodEntries_insert {entries : HashEntries} {key : HashKey} {k v : Value}
    (he : D.GoodEntries m entries) (hkey : k.hashKey? = some key) (hk : D.Good m k)
    (hv : D.Good m v) : D.GoodEntries m (OrderedMap.insert key (k, v) entries) := by
  intro key' k' v' hmem
  rcases OrderedMap.eq_or_mem_of_mem_insert hmem with heq | hmem
  · cases heq
    exact ⟨hkey, hk, hv⟩
  · exact he key' k' v' hmem

/-- A name is asked for first: a placeholder for one is a fault. -/
theorem named (h : D.Lawful env) (hm : D.Inv m) {i : Identifier} (hi : D.shape.name i)
    {α : Type} {r : Eval α} {P : Machine → α → Prop} (hr : D.Keeps m r P) :
    D.Keeps m (if i.isMissing = true
      then (MonadExcept.throw (.fault (.placeholder .identifier)) : Eval Unit) >>= fun _ => r
      else r) P := by
  split
  · next hmissing => exact h.throw (P := P) hm (h.unnamed m hi hmissing)
  · exact hr

/-- A variable has a good value, or there is an error. -/
theorem resolve (h : D.Lawful env) (hm : D.Inv m) {i : Identifier} (hi : D.shape.name i) :
    D.Keeps m (Eval.resolve env i) D.Good := by
  unfold Eval.resolve
  refine h.named hm hi ?_
  have hget : D.Keeps m (get : Eval Machine) fun n l => n = l := .ok m m rfl hm (h.refl m) rfl
  refine h.bind hget ?_
  rintro _ n hn - rfl
  split
  · next hlookup => exact h.pure hn (h.lookup hn hlookup)
  split
  · exact h.pure hn (h.plain n rfl)
  · exact h.throw hn (h.error n _)

variable {apply : Apply}

/-- Calling a value keeps to the discipline. -/
theorem applyValue (h : D.Lawful env) (ha : D.Applies apply) (hm : D.Inv m) {callee : Value}
    (hcallee : D.Good m callee) (frame : CallFrame) {args : List Value}
    (hargs : ∀ v ∈ args, D.Good m v) :
    D.Keeps m (Eval.applyValue apply callee frame args) D.Good := by
  unfold Eval.applyValue
  split
  · exact ha hm hcallee hargs
  · exact h.run hm _ hargs
  · exact h.throw hm (h.error m _)

mutual

/-- Evaluating an expression keeps to the discipline. -/
theorem expr (h : D.Lawful env) (ha : D.Applies apply) : ∀ (e : Expr), e.HasShape D.shape →
    ∀ {m : Machine}, D.Inv m → D.Keeps m (Eval.expr apply env e) D.Good
  | .identifier _, hs, _, hm => h.resolve hm hs
  | .integer _ _, _, m, hm => h.pure hm (h.plain m rfl)
  | .boolean _ _, _, m, hm => h.pure hm (h.plain m rfl)
  | .string _ _, _, m, hm => h.pure hm (h.plain m rfl)
  | .array _ elements, hs, _, hm =>
    h.bind (h.exprs ha elements hs hm) fun _ _ hn _ hvs => h.array hn hvs
  | .hash _ ps, hs, m, hm =>
    h.bind (h.pairs ha ps hs hm (goodEntries_nil m)) fun _ _ hn _ hes => h.hash hn hes
  | .unary _ op right, hs, _, hm =>
    h.bind (h.expr ha right hs hm) fun _ n hn _ _ =>
      h.ofExcept hn fun _ hw => h.plain n (isPlain_of_evalUnary hw)
  | .binary _ left op right, hs, _, hm =>
    h.bind (h.expr ha left hs.1 hm) fun _ _ hn _ _ =>
      h.bind (h.expr ha right hs.2 hn) fun _ l hl _ _ =>
        h.ofExcept hl fun _ hw => h.plain l (isPlain_of_evalBinary hw)
  | .conditional _ condition consequence none, hs, _, hm => by
    refine h.bind (h.expr ha condition hs.1 hm) fun c n hn _ _ => ?_
    split
    · exact h.block ha consequence hs.2 hn
    · exact h.pure hn (h.plain n rfl)
  | .conditional _ condition consequence (some alternative), hs, _, hm => by
    refine h.bind (h.expr ha condition hs.1 hm) fun c n hn _ _ => ?_
    split
    · exact h.block ha consequence hs.2.1 hn
    · exact h.block ha alternative hs.2.2 hn
  | .function _, hs, _, hm => h.function hm hs
  | .call _ callee arguments, hs, _, hm =>
    h.bind (h.expr ha callee hs.1 hm) fun _ _ hn _ hf =>
      h.bind (h.exprs ha arguments hs.2 hn) fun _ _ hl hstep hargs =>
        -- The callee is still good after its arguments, by `mono`.
        h.applyValue ha hl (h.mono hstep hf) _ hargs
  | .index _ left index, hs, _, hm =>
    h.bind (h.expr ha left hs.1 hm) fun _ _ hn _ hleft =>
      h.bind (h.expr ha index hs.2 hn) fun _ _ hl hstep _ =>
        h.ofExcept hl fun _ hw => h.of_evalIndex (h.mono hstep hleft) hw
  | .missing _, hs, m, hm => h.throw hm (h.placeholder m hs)

theorem exprs (h : D.Lawful env) (ha : D.Applies apply) : ∀ (es : List Expr),
    ListHasShape D.shape es → ∀ {m : Machine}, D.Inv m →
      D.Keeps m (Eval.exprs apply env es) fun n vs => ∀ v ∈ vs, D.Good n v
  | [], _, _, hm => h.pure hm nofun
  | e :: es, hs, _, hm =>
    h.bind (h.expr ha e hs.1 hm) fun _ _ hn _ hv =>
      h.bind (h.exprs ha es hs.2 hn) fun _ _ hl hstep hvs =>
        h.pure hl (List.forall_mem_cons.mpr ⟨h.mono hstep hv, hvs⟩)

theorem pairs (h : D.Lawful env) (ha : D.Applies apply) : ∀ (ps : List (Expr × Expr)),
    PairsHaveShape D.shape ps → ∀ {m : Machine} {entries : HashEntries}, D.Inv m →
      D.GoodEntries m entries → D.Keeps m (Eval.pairs apply env ps entries) D.GoodEntries
  | [], _, _, _, hm, he => h.pure hm he
  | (key, value) :: ps, hs, _, entries, hm, he => by
    refine h.bind (h.expr ha key hs.1 hm) fun k n hn hstep hk => ?_
    split
    · exact h.throw hn (h.error n _)
    · next hashKey hkey =>
      refine h.bind (h.expr ha value hs.2.1 hn) fun v l hl hstep' hv => ?_
      exact h.pairs ha ps hs.2.2 hl (goodEntries_insert
        (h.mono_entries (h.trans hstep hstep') he) hkey (h.mono hstep' hk) hv)

theorem block (h : D.Lawful env) (ha : D.Applies apply) : ∀ (b : Block), b.HasShape D.shape →
    ∀ {m : Machine}, D.Inv m → D.Keeps m (Eval.block apply env b) D.Good
  | ⟨_, statements⟩, hs, m, hm => h.stmts ha statements hs hm (h.plain m rfl)

/-- Evaluating statements keeps to the discipline. -/
theorem stmts (h : D.Lawful env) (ha : D.Applies apply) : ∀ (ss : List Stmt),
    BodyHasShape D.shape ss → ∀ {m : Machine} {last : Value}, D.Inv m → D.Good m last →
      D.Keeps m (Eval.stmts apply env ss last) D.Good
  | [], _, _, _, hm, hlast => h.pure hm hlast
  | s :: ss, hs, _, _, hm, _ =>
    h.bind (h.stmt ha s hs.1 hm) fun _ _ hn _ hv => h.stmts ha ss hs.2 hn hv

/-- Evaluating a statement keeps to the discipline. -/
theorem stmt (h : D.Lawful env) (ha : D.Applies apply) : ∀ (s : Stmt), s.HasShape D.shape →
    ∀ {m : Machine}, D.Inv m → D.Keeps m (Eval.stmt apply env s) D.Good
  | .letBinding _ _ value, hs, _, hm =>
    h.named hm hs.1 <| h.bind (h.expr ha value hs.2 hm) fun _ _ hn _ hv =>
      h.bind (h.bindName hn hs.1 hv) fun _ l hl _ _ => h.pure hl (h.plain l rfl)
  | .returning _ value, hs, _, hm =>
    h.bind (h.expr ha value hs hm) fun _ _ hn _ hv => h.throw hn (h.returning hv)
  | .expression _ e, hs, _, hm => h.expr ha e hs hm
  | .block b, hs, _, hm => h.block ha b hs.2 hm
  | .missing _, hs, m, hm => h.throw hm (h.placeholder m hs)

end

/-- Evaluating a program keeps to the discipline, if a value that is returned is a good one. -/
theorem program (h : D.Lawful env) (ha : D.Applies apply)
    (hreturned : ∀ m v, D.Unwinds m (.returning v) → D.Good m v) {p : Program}
    (hp : BodyHasShape D.shape p.statements) (hm : D.Inv m) :
    D.Keeps m (runProgram apply env p) D.Good := by
  have hnull : D.Good m .null := h.plain m rfl
  have hstatements := h.stmts ha p.statements hp hm hnull
  cases hstatements with
  | ok v n run inv step answer => exact .ok v n (runProgram_of_ok run) inv step answer
  | error u n run inv step unwinds =>
    by_cases hu : ∃ v, u = .returning v
    · obtain ⟨v, rfl⟩ := hu
      exact .ok v n (runProgram_of_returning run) inv step (hreturned n v unwinds)
    · exact .error u n (runProgram_of_error run fun v hv => hu ⟨v, hv⟩) inv step unwinds

end Lawful

/-! ## Calls -/

/-- Binding parameters keeps to the discipline. -/
theorem Lawful.bindParameters {env : ScopeId} (h : D.Lawful env) : ∀ (ps : List Identifier)
    (args : List Value) {m : Machine}, D.Inv m → (∀ i ∈ ps, D.shape.name i) →
      (∀ v ∈ args, D.Good m v) → D.Keeps m (bindParameters env ps args) fun _ _ => True
  | [], _, _, hm, _, _ => h.pure hm trivial
  | _ :: _, [], _, hm, _, _ => h.pure hm trivial
  | p :: ps, v :: vs, _, hm, hps, hvs => by
    rw [Ember.bindParameters]
    refine h.named hm (hps p List.mem_cons_self) ?_
    refine h.bind (h.bindName hm (hps p List.mem_cons_self) (hvs v List.mem_cons_self)) ?_
    intro _ n hn hstep _
    exact h.bindParameters ps vs hn (fun i hi => hps i (List.mem_cons_of_mem p hi))
      fun w hw => h.mono hstep (hvs w (List.mem_cons_of_mem v hw))

variable (D) in
/--
The primitive steps keep to the discipline in the scopes of a region. The functions that are good
were made in the region, and a scope made inside one of the region belongs to it.
-/
structure LawfulIn (own : ScopeId → Prop) : Prop where
  lawful : ∀ {env}, own env → D.Lawful env
  function : ∀ {m id f scope}, D.Good m (.function id f scope) → f.HasShape D.shape ∧ own scope
  newScope : ∀ {m outer}, own outer → D.Inv m →
    D.Keeps m (Eval.onHeap (·.newScope (some outer))) fun _ env => own env

namespace LawfulIn

variable {own : ScopeId → Prop}

/-- A call keeps to the discipline if running the body in its frame does. -/
theorem callWith (h : D.LawfulIn own) {body : ScopeId → Block → Eval Value}
    (hbody : ∀ {env} (b : Block) frame {m}, own env → b.HasShape D.shape → D.Inv m →
      D.Keeps m (Eval.inFrame frame (body env b)) D.Good) : D.Applies (callWith body) := by
  intro m id f scope frame args hm hf hargs
  obtain ⟨token, parameters, block⟩ := f
  obtain ⟨⟨hparameters, hblock⟩, hscope⟩ :
      ((∀ i ∈ parameters, D.shape.name i) ∧ block.HasShape D.shape) ∧ own scope := h.function hf
  have hlaw := h.lawful hscope
  unfold Ember.callWith
  split
  · exact hlaw.throw (P := D.Good) hm (hlaw.error m _)
  · refine hlaw.bind (h.newScope hscope hm) fun env n hn hstep henv => ?_
    have hgood : ∀ v ∈ args, D.Good n v := fun v hv => hlaw.mono hstep (hargs v hv)
    refine hlaw.bind ((h.lawful henv).bindParameters parameters args hn hparameters hgood) ?_
    intro _ l hl _ _
    exact hbody block frame henv hblock hl

/-- With any budget, calling a function value keeps to the discipline if frames do. -/
theorem applyFunction (h : D.LawfulIn own)
    (hframe : ∀ {m} frame {body : Eval Value}, D.Inv m →
      (∀ {n}, D.Inv n → D.Keeps n body D.Good) → D.Keeps m (Eval.inFrame frame body) D.Good)
    (hexhausted : ∀ m, D.Unwinds m .exhausted) : ∀ budget, D.Applies (applyFunction budget)
  | 0 => h.callWith fun _ frame _ henv _ hm =>
    hframe frame hm fun hn => (h.lawful henv).throw hn (hexhausted _)
  | budget + 1 => h.callWith fun b frame _ henv hb hm =>
    hframe frame hm fun hn =>
      (h.lawful henv).block (h.applyFunction hframe hexhausted budget) b hb hn

end LawfulIn

variable (D) in
/-- The primitive steps keep to the discipline in every scope, and so does making a new one. -/
structure LawfulScopes : Prop where
  lawful : ∀ env, D.Lawful env
  literal : ∀ {m id f scope}, D.Good m (.function id f scope) → f.HasShape D.shape
  newScope : ∀ {m} outer, D.Inv m →
    D.Keeps m (Eval.onHeap (·.newScope outer)) fun _ _ => True

namespace LawfulScopes

/-- The region is the whole heap. -/
theorem lawfulIn (h : D.LawfulScopes) : D.LawfulIn fun _ => True where
  lawful _ := h.lawful _
  function hf := ⟨h.literal hf, trivial⟩
  newScope _ hm := h.newScope _ hm

/-- A call keeps to the discipline if running the body in its frame does. -/
theorem callWith (h : D.LawfulScopes) {body : ScopeId → Block → Eval Value}
    (hbody : ∀ env (b : Block) frame {m}, b.HasShape D.shape → D.Inv m →
      D.Keeps m (Eval.inFrame frame (body env b)) D.Good) : D.Applies (callWith body) :=
  h.lawfulIn.callWith fun b frame _ _ hb hm => hbody _ b frame hb hm

end LawfulScopes

variable (D) in
/-- Frames keep to the discipline too, whatever it was that the budget ran out for. -/
structure LawfulCalls : Prop extends D.LawfulScopes where
  inFrame : ∀ {m} frame {body : Eval Value}, D.Inv m →
    (∀ {n}, D.Inv n → D.Keeps n body D.Good) → D.Keeps m (Eval.inFrame frame body) D.Good
  exhausted : ∀ m, D.Unwinds m .exhausted

/-- With any budget, calling a function value keeps to the discipline. -/
theorem LawfulCalls.applyFunction (h : D.LawfulCalls) (budget : Nat) :
    D.Applies (applyFunction budget) :=
  h.lawfulIn.applyFunction h.inFrame h.exhausted budget

/--
A frame keeps to the discipline if refusing, pushing and popping one do, and if a value that is
returned is a good one.
-/
theorem keeps_inFrame {frame : CallFrame} {body : Eval Value} (hm : D.Inv m)
    (hbody : ∀ {n}, D.Inv n → D.Keeps n body D.Good)
    (hrefused : ∀ f, m.calls.push frame = .error f → D.Step m m ∧ D.Unwinds m (.fault f))
    (hpushed : ∀ calls, m.calls.push frame = .ok calls → D.Inv { m with calls } ∧
      ∀ n, D.Inv n → D.Step { m with calls } n →
        D.Inv (Eval.popFrame n) ∧ D.Step m (Eval.popFrame n))
    (hgood : ∀ n v, D.Good n v → D.Good (Eval.popFrame n) v)
    (hunwinds : ∀ n u, D.Unwinds n u → D.Unwinds (Eval.popFrame n) u)
    (hreturned : ∀ n v, D.Unwinds n (.returning v) → D.Good n v) :
    D.Keeps m (Eval.inFrame frame body) D.Good := by
  cases hpush : m.calls.push frame with
  | error f =>
    obtain ⟨hstep, hfault⟩ := hrefused f hpush
    exact .error _ m (Eval.inFrame_of_push_error hpush) hm hstep hfault
  | ok calls =>
    obtain ⟨hinv, hpop⟩ := hpushed calls hpush
    cases hbody hinv with
    | ok v n run inv step answer =>
      obtain ⟨inv', step'⟩ := hpop n inv step
      exact .ok v _ (Eval.inFrame_of_ok hpush run) inv' step' (hgood n v answer)
    | error u n run inv step unwinds =>
      obtain ⟨inv', step'⟩ := hpop n inv step
      by_cases hu : ∃ v, u = .returning v
      · obtain ⟨v, rfl⟩ := hu
        have hv := hgood n v (hreturned n v unwinds)
        exact .ok v _ (Eval.inFrame_of_returning hpush run) inv' step' hv
      · exact .error u _ (Eval.inFrame_of_error hpush run fun v hv => hu ⟨v, hv⟩) inv' step'
          (hunwinds n u unwinds)

end Discipline

end Ember
