import Ember.Proofs.Eval.Signals

/-!
# The values at hand

`Moment.values` lists the values at a moment of an evaluation: those in what is done next, those in
what waits for it and those bound in the heap. A value is there (`Moment.Has`) if it stands in one
of them.

Going on in the tree passes values on, and so does a builtin that takes an array apart; operators
answer with values that have no parts. The other values are made: from an array, a hash or a
function literal, by `push` or by `rest` (`Action.Makes`). There is nothing else that a step can do
(`Moment.gains_next`).
-/

namespace Ember

/-! ## Where a value comes from -/

namespace Value

variable {u v w : Value} {vs ws : List Value}

/-- What stands in a part stands in the whole. -/
theorem Part.trans (huv : u.Part v) (hvw : v.Part w) : u.Part w := by
  induction hvw with
  | whole => exact huv
  | element hv _ ih => exact .element hv ih
  | key he _ ih => exact .key he ih
  | entry he _ ih => exact .entry he ih
  | returned _ ih => exact .returned ih

/-- The value has no parts, or it stands in one of those values. -/
def From (v : Value) (ws : List Value) : Prop := v.isPlain = true ∨ ∃ w ∈ ws, v.Part w

theorem from_of_mem (h : v ∈ ws) : v.From ws := .inr ⟨v, h, .whole v⟩

theorem From.mono (hv : v.From vs) (h : vs ⊆ ws) : v.From ws := by
  rcases hv with hplain | ⟨w, hw, hvw⟩
  · exact .inl hplain
  · exact .inr ⟨w, h hw, hvw⟩

/-- What stands in a value comes from where the value comes from. -/
theorem From.part (hv : v.From ws) (hu : u.Part v) : u.From ws := by
  rcases hv with hplain | ⟨w, hw, hvw⟩
  · cases v with
    | array _ _ | hash _ _ | function _ _ _ | returnSignal _ | error _ => cases hplain
    | _ =>
      cases hu
      exact .inl rfl
  · exact .inr ⟨w, hw, hu.trans hvw⟩

/-- Where a value comes from may be traced back. -/
theorem From.trans (hv : v.From vs) (h : ∀ w ∈ vs, w.From ws) : v.From ws := by
  rcases hv with hplain | ⟨w, hw, hvw⟩
  · exact .inl hplain
  · exact (h w hw).part hvw

/-- A value that may be left out is null then, and null has no parts. -/
theorem from_getD {o : Option Value} (h : ∀ v, o = some v → v.From ws) :
    (o.getD .null).From ws := by
  cases o with
  | none => exact .inl rfl
  | some v => exact h v rfl

/-- The elements of an array come from where the array does. -/
theorem from_of_mem_elements {id : Identity} (h : v ∈ vs) : v.From (.array id vs :: ws) :=
  .inr ⟨_, List.mem_cons_self, .element h (.whole v)⟩

/-- An element access gives a part, or null. -/
theorem from_evalIndex {left index : Value} (h : evalIndex left index = .ok v) :
    v.From (left :: ws) := by
  unfold evalIndex at h
  split at h
  · cases h
    split
    · exact .inl rfl
    · exact from_getD fun u hu => from_of_mem_elements (List.mem_of_getElem? hu)
  · split at h
    · cases h
      refine from_getD fun u hu => ?_
      obtain ⟨⟨k, w⟩, hget, rfl⟩ := Option.map_eq_some_iff.mp hu
      exact .inr ⟨_, List.mem_cons_self, .entry (OrderedMap.mem_of_get? hget) (.whole w)⟩
    · cases h
  · cases h

end Value

/-! ## The inventory -/

/-- The keys and the values of a hash. -/
def entryValues (entries : HashEntries) : List Value := entries.flatMap fun e => [e.2.1, e.2.2]

/-- The values in a hash are its keys, as values, and what stands under them. -/
theorem mem_entryValues {entries : HashEntries} {v : Value} :
    v ∈ entryValues entries ↔ ∃ key k w, (key, k, w) ∈ entries ∧ (v = k ∨ v = w) := by
  simp [entryValues]

/-- An insertion brings nothing into a hash but the key and the value inserted. -/
theorem entryValues_insert_subset (key : HashKey) (k v : Value) (entries : HashEntries) :
    entryValues (OrderedMap.insert key (k, v) entries) ⊆ v :: k :: entryValues entries := by
  intro u hu
  obtain ⟨key', k', v', hmem, hu⟩ := mem_entryValues.mp hu
  rcases OrderedMap.eq_or_mem_of_mem_insert hmem with heq | hmem
  · cases heq
    rcases hu with rfl | rfl <;> simp
  · simp only [List.mem_cons]
    exact .inr (.inr (mem_entryValues.mpr ⟨key', k', v', hmem, hu⟩))

def Purpose.values : Purpose → List Value
  | .array => []
  | .call callee _ => [callee]

def Task.values : Task → List Value
  | .collect purpose done _ => purpose.values ++ done
  | .pairs _ entries => entryValues entries
  | .stmts _ last => [last]
  | .expr _ | .stmt _ => []

def Action.values : Action → List Value
  | .array elements => elements
  | .hash entries => entryValues entries
  | .assign _ v => [v]
  | .run _ args | .call _ _ _ args | .bind _ _ args _ _ => args
  | .function _ | .lookup _ _ => []

/-- The value of an answer, also of a `return` that is on its way. -/
def answerValues : Except Unwind Value → List Value
  | .ok v | .error (.returning v) => [v]
  | .error _ => []

def Focus.values : Focus → List Value
  | .task t => t.values
  | .act p => p.values
  | .enter _ _ _ => []
  | .ended r => answerValues r

def Pending.values : Pending → List Value
  | .collect purpose done _ => purpose.values ++ done
  | .key _ _ entries => entryValues entries
  | .entry _ k _ entries => k :: entryValues entries
  | .right a _ | .index a => [a]
  | .unary _ | .left _ _ | .condition _ _ | .callee _ _ | .indexed _ | .binding _ | .returning
  | .stmts _ | .program => []

/-- The values that are bound in a heap. -/
def Heap.values (h : Heap) : List Value :=
  h.scopes.toList.flatMap fun s => s.bindings.map Prod.snd

namespace Heap

variable {h h' : Heap} {v w : Value}

theorem mem_values : v ∈ h.values ↔
    ∃ (i : Nat) (s : Scope) (name : String), h.scopes[i]? = some s ∧ (name, v) ∈ s.bindings := by
  simp only [values, List.mem_flatMap, List.mem_map, Prod.exists, exists_eq_right]
  constructor
  · rintro ⟨s, hs, name, hname⟩
    obtain ⟨i, hi⟩ := List.mem_iff_getElem?.mp hs
    exact ⟨i, s, name, Array.getElem?_toList.symm.trans hi, hname⟩
  · rintro ⟨i, s, name, hi, hname⟩
    exact ⟨s, List.mem_iff_getElem?.mpr ⟨i, Array.getElem?_toList.trans hi⟩, name, hname⟩

/-- Binding a name brings nothing into a heap but the value bound. -/
theorem values_set_subset (h : Heap) (id : ScopeId) (name : String) (v : Value) :
    (h.set id name v).values ⊆ v :: h.values := by
  intro w hw
  obtain ⟨i, s, other, hs, hmem⟩ := mem_values.mp hw
  rw [getElem?_set] at hs
  split at hs
  · obtain ⟨t, ht, rfl⟩ := Option.map_eq_some_iff.mp hs
    rcases OrderedMap.eq_or_mem_of_mem_insert hmem with heq | hmem
    · cases heq
      exact List.mem_cons_self
    · exact List.mem_cons_of_mem v (mem_values.mpr ⟨i, t, other, ht, hmem⟩)
  · exact List.mem_cons_of_mem v (mem_values.mpr ⟨i, s, other, hs, hmem⟩)

/-- A new scope brings no value. -/
theorem values_newScope_subset (h : Heap) (outer : Option ScopeId) :
    (h.newScope outer).2.values ⊆ h.values := by
  intro w hw
  obtain ⟨i, s, name, hs, hmem⟩ := mem_values.mp hw
  rw [getElem?_newScope] at hs
  split at hs
  · cases hs
    cases hmem
  · exact mem_values.mpr ⟨i, s, name, hs, hmem⟩

end Heap

/-! ## Going through the tree -/

/-- The values in a focus and in what waits for it come from those values. -/
def DrawsOn (ws : List Value) (x : Focus × List Pending) : Prop :=
  (∀ v ∈ x.1.values, v.From ws) ∧ ∀ p ∈ x.2, ∀ v ∈ p.values, v.From ws

section DrawsOn

variable {ws : List Value} {f : Focus} {p : Pending}

theorem drawsOn_nil_iff : DrawsOn ws (f, []) ↔ ∀ v ∈ f.values, v.From ws := by simp [DrawsOn]

theorem drawsOn_of_subset (hf : f.values ⊆ ws) : DrawsOn ws (f, []) :=
  drawsOn_nil_iff.mpr fun _ hv => Value.from_of_mem (hf hv)

theorem drawsOn_pending_of_subset (hf : f.values = []) (hp : p.values ⊆ ws) :
    DrawsOn ws (f, [p]) := by
  constructor
  · simp [hf]
  · simp only [List.mem_singleton, forall_eq]
    exact fun v hv => Value.from_of_mem (hp hv)

end DrawsOn

/-- A signal that becomes a value at a call carries the same value. -/
theorem answerValues_atBoundary (r : Except Unwind Value) :
    answerValues (atBoundary r) = answerValues r := by
  cases r with
  | ok v => rfl
  | error u => cases u <;> rfl

/-- What is made of the values of the children holds nothing else. -/
theorem Purpose.values_finish_subset (purpose : Purpose) (vs : List Value) :
    (purpose.finish vs).values ⊆ purpose.values ++ vs := by
  cases purpose with
  | array => exact List.Subset.refl _
  | call callee frame =>
    cases callee with
    | function _ _ _ | builtin _ => exact List.subset_append_right _ _
    | _ => exact List.nil_subset _

/-- Where an operator fails there is no value to account for. -/
theorem Focus.drawsOn_ofExcept {r : Except RuntimeError Value} {ws : List Value}
    (h : ∀ v, r = .ok v → v.From ws) : DrawsOn ws (Focus.ofExcept r, []) := by
  cases r with
  | ok v => exact drawsOn_nil_iff.mpr (List.forall_mem_singleton.mpr (h v rfl))
  | error e => exact drawsOn_of_subset (List.nil_subset ws)

/-- A branch is chosen by the value of the condition, which is then gone. -/
theorem Focus.drawsOn_branch (ws : List Value) (v : Value) (consequence : Block)
    (alternative : Option Block) : DrawsOn ws (Focus.branch v consequence alternative, []) := by
  -- Nothing is evaluated yet, so the value of the block is null.
  have hnull : ∀ w ∈ [Value.null], w.From ws := List.forall_mem_singleton.mpr (.inl rfl)
  refine drawsOn_nil_iff.mpr ?_
  unfold branch
  split
  · exact hnull
  · cases alternative with
    | none => exact hnull
    | some b => exact hnull

/-- An expression starts without any values, but for the plain ones that it writes down itself. -/
theorem Expr.drawsOn_first (ws : List Value) (env : ScopeId) (e : Expr) :
    DrawsOn ws (e.first env) := by
  cases e with
  | identifier name =>
    rw [first]
    split
    · exact drawsOn_of_subset (List.nil_subset _)
    · exact drawsOn_of_subset (List.nil_subset _)
  | integer _ _ | boolean _ _ | string _ _ =>
    exact drawsOn_nil_iff.mpr (List.forall_mem_singleton.mpr (.inl rfl))
  | array _ _ | hash _ _ | function _ | missing _ => exact drawsOn_of_subset (List.nil_subset _)
  | unary _ _ _ | binary _ _ _ _ | conditional _ _ _ _ | call _ _ _ | index _ _ _ =>
    exact drawsOn_pending_of_subset rfl (List.nil_subset _)

theorem Stmt.drawsOn_first (ws : List Value) (s : Stmt) : DrawsOn ws s.first := by
  cases s with
  | letBinding _ name _ =>
    rw [first]
    split
    · exact drawsOn_of_subset (List.nil_subset _)
    · exact drawsOn_pending_of_subset rfl (List.nil_subset _)
  | returning _ _ => exact drawsOn_pending_of_subset rfl (List.nil_subset _)
  | expression _ _ | missing _ => exact drawsOn_of_subset (List.nil_subset _)
  | block _ => exact drawsOn_nil_iff.mpr (List.forall_mem_singleton.mpr (.inl rfl))

/-- Beginning with a part of a tree passes values on. -/
theorem Task.drawsOn_first (env : ScopeId) (t : Task) : DrawsOn t.values (t.first env) := by
  cases t with
  | expr e => exact e.drawsOn_first _ env
  | stmt s => exact s.drawsOn_first _
  | collect purpose done todo =>
    cases todo with
    | nil => exact drawsOn_of_subset (purpose.values_finish_subset done)
    | cons e es => exact drawsOn_pending_of_subset rfl (List.Subset.refl _)
  | pairs todo entries =>
    cases todo with
    | nil => exact drawsOn_of_subset (List.Subset.refl _)
    | cons p ps => exact drawsOn_pending_of_subset rfl (List.Subset.refl _)
  | stmts todo last =>
    cases todo with
    | nil => exact drawsOn_of_subset (List.Subset.refl _)
    | cons s ss => exact drawsOn_pending_of_subset rfl (List.nil_subset _)

/-- Going on with a value passes it on, or a part of a value that waits, or gives a plain one. -/
theorem Pending.drawsOn_resume (p : Pending) (v : Value) :
    DrawsOn (v :: p.values) (p.resume v) := by
  have hv : [v] ⊆ v :: p.values := List.cons_subset.mpr ⟨List.mem_cons_self, List.nil_subset _⟩
  have hp : p.values ⊆ v :: p.values := List.subset_cons_self _ _
  cases p with
  | collect purpose done todo =>
    refine drawsOn_of_subset ?_
    show purpose.values ++ (done ++ [v]) ⊆ _
    rw [← List.append_assoc]
    exact List.append_subset.mpr ⟨hp, hv⟩
  | key value todo entries =>
    rw [resume]
    split
    · exact drawsOn_of_subset (List.nil_subset _)
    · exact drawsOn_pending_of_subset rfl (List.Subset.refl _)
  | entry hashKey k todo entries =>
    exact drawsOn_of_subset (entryValues_insert_subset hashKey k v entries)
  -- Operators answer with plain values, and an element is a part of the value that waits.
  | unary op => exact Focus.drawsOn_ofExcept fun w hw => .inl (isPlain_of_evalUnary hw)
  | right a op => exact Focus.drawsOn_ofExcept fun w hw => .inl (isPlain_of_evalBinary hw)
  | index a => exact Focus.drawsOn_ofExcept fun w hw => (Value.from_evalIndex hw).mono hp
  | condition consequence alternative => exact Focus.drawsOn_branch _ v consequence alternative
  | left op e | indexed i => exact drawsOn_pending_of_subset rfl hv
  | callee frame arguments => exact drawsOn_of_subset hv
  | binding name | returning | stmts todo | program => exact drawsOn_of_subset hv

/-- What was waiting is dropped on the way out. -/
theorem Pending.values_unwind (p : Pending) (u : Unwind) :
    (p.unwind u).values = answerValues (.error u) := by
  cases p with
  | program => exact answerValues_atBoundary (.error u)
  | _ => rfl

/-! ## Making values -/

/-- An action in the scope `env` makes a value: an array, a hash or a function. -/
inductive Action.Makes (env : ScopeId) (id : Identity) : Action → Value → Prop
  | array (vs : List Value) : Makes env id (.array vs) (.array id vs)
  | hash (entries : HashEntries) : Makes env id (.hash entries) (.hash id entries)
  | function (f : FunctionLiteral) : Makes env id (.function f) (.function id f env)
  /-- `rest` of an array that is not empty. -/
  | rest (i : Identity) (v : Value) (vs : List Value) :
      Makes env id (.run .rest [.array i (v :: vs)]) (.array id vs)
  | push (i : Identity) (vs : List Value) (v : Value) :
      Makes env id (.run .push [.array i vs, v]) (.array id (vs ++ [v]))

namespace Action.Makes

variable {env : ScopeId} {id : Identity} {p : Action} {u w w' : Value}

/-- An action makes at most one value. -/
theorem unique (hw : p.Makes env id w) (hw' : p.Makes env id w') : w' = w := by
  cases hw <;> cases hw' <;> rfl

/-- Only the value itself is new. -/
theorem part (hw : p.Makes env id w) (hu : u.Part w) : u = w ∨ u.From p.values := by
  cases hw with
  | array vs =>
    cases hu with
    | whole => exact .inl rfl
    | element hv hu => exact .inr (.inr ⟨_, hv, hu⟩)
  | hash entries =>
    cases hu with
    | whole => exact .inl rfl
    | key he hu => exact .inr (.inr ⟨_, mem_entryValues.mpr ⟨_, _, _, he, .inl rfl⟩, hu⟩)
    | entry he hu => exact .inr (.inr ⟨_, mem_entryValues.mpr ⟨_, _, _, he, .inr rfl⟩, hu⟩)
  | function f =>
    cases hu
    exact .inl rfl
  | rest i v vs =>
    cases hu with
    | whole => exact .inl rfl
    | element hv hu =>
      exact .inr (.part (Value.from_of_mem_elements (List.mem_cons_of_mem v hv)) hu)
  | push i vs v =>
    cases hu with
    | whole => exact .inl rfl
    | element hv hu =>
      right
      rcases List.mem_append.mp hv with hv | hv
      · exact .part (Value.from_of_mem_elements hv) hu
      · cases List.mem_singleton.mp hv
        exact .inr ⟨v, by simp [Action.values], hu⟩

end Action.Makes

/-- What a call of a builtin comes to: a value that comes from the arguments, or a new one. -/
inductive Builtin.Answers (b : Builtin) (args : List Value) : Eval Value → Prop
  | value {v : Value} (hv : v.From args) : Answers b args (pure v)
  | fresh {make : Identity → Value}
      (hmake : ∀ env id, (Action.run b args).Makes env id (make id)) :
      Answers b args (Eval.allocate make)
  | print (lines : List String) :
      Answers b args fun m => .ok .null { m with printer := m.printer.printAll lines }
  | error (e : RuntimeError) : Answers b args (throw (.error e))

/-- A builtin answers with parts of its arguments, or with one new array of such parts. -/
theorem Builtin.answers_run (b : Builtin) (args : List Value) : b.Answers args (b.run args) := by
  cases b with
  | len =>
    rcases args with _ | ⟨v, _ | ⟨w, rest⟩⟩
    · exact .error _
    · cases v with
      | string _ | array _ _ => exact .value (.inl rfl)
      | _ => exact .error _
    · exact .error _
  | first =>
    rcases args with _ | ⟨v, _ | ⟨w, rest⟩⟩
    · exact .error _
    · cases v with
      | array id vs =>
        refine .value (Value.from_getD fun u hu => ?_)
        exact Value.from_of_mem_elements (List.mem_of_head? hu)
      | _ => exact .error _
    · exact .error _
  | last =>
    rcases args with _ | ⟨v, _ | ⟨w, rest⟩⟩
    · exact .error _
    · cases v with
      | array id vs =>
        refine .value (Value.from_getD fun u hu => ?_)
        exact Value.from_of_mem_elements (List.mem_of_getLast? hu)
      | _ => exact .error _
    · exact .error _
  | rest =>
    rcases args with _ | ⟨v, _ | ⟨w, rest⟩⟩
    · exact .error _
    · cases v with
      | array id vs =>
        cases vs with
        | nil => exact .value (.inl rfl)
        | cons v vs => exact .fresh fun _ _ => .rest id v vs
      | _ => exact .error _
    · exact .error _
  | push =>
    rcases args with _ | ⟨v, _ | ⟨w, _ | ⟨x, rest⟩⟩⟩
    · exact .error _
    · exact .error _
    · cases v with
      | array id vs => exact .fresh fun _ _ => .push id vs w
      | _ => exact .error _
    · exact .error _
  | puts =>
    rw [run_puts]
    exact .print _

/-! ## Steps -/

namespace Moment

variable {a b : Moment}

/-- The values at a moment. -/
def values (a : Moment) : List Value :=
  a.focus.values ++ a.pending.flatMap Pending.values ++
    a.callers.flatMap (fun c => c.pending.flatMap Pending.values) ++ a.machine.heap.values

/-- The value is there, by itself or as a part of another one. -/
def Has (a : Moment) (v : Value) : Prop := ∃ w ∈ a.values, v.Part w

/-- The step from the moment makes the value. -/
def Makes (a : Moment) (w : Value) : Prop :=
  ∃ p, a.focus = .act p ∧ p.Makes a.env a.machine.heap.freshIdentity.1 w

/-- All values of a moment, by where they stand. -/
theorem forall_mem_values {P : Value → Prop} : (∀ v ∈ a.values, P v) ↔
    (∀ v ∈ a.focus.values, P v) ∧ (∀ p ∈ a.pending, ∀ v ∈ p.values, P v) ∧
      (∀ c ∈ a.callers, ∀ p ∈ c.pending, ∀ v ∈ p.values, P v) ∧
      ∀ v ∈ a.machine.heap.values, P v := by
  simp only [values, List.forall_mem_append, List.forall_mem_flatMap, and_assoc]

theorem has_of_focus {v : Value} (h : a.focus = .value v) : a.Has v := by
  refine ⟨v, ?_, .whole v⟩
  simp [values, h, Focus.values, answerValues]

/-- Each value at a moment comes from the values at that moment. -/
theorem from_values (a : Moment) :
    (∀ v ∈ a.focus.values, v.From a.values) ∧
      (∀ p ∈ a.pending, ∀ v ∈ p.values, v.From a.values) ∧
      (∀ c ∈ a.callers, ∀ p ∈ c.pending, ∀ v ∈ p.values, v.From a.values) ∧
      ∀ v ∈ a.machine.heap.values, v.From a.values :=
  forall_mem_values.mp fun _ hv => Value.from_of_mem hv

/--
What a step does to the values that are there: it passes them on and adds plain ones, or it makes
one new value, to which it gives the next identity.
-/
inductive Gains (a b : Moment) : Prop
  | known (hserial : b.machine.heap.nextSerial = a.machine.heap.nextSerial)
      (hvalues : ∀ v ∈ b.values, v.From a.values)
  | made {w : Value} (hw : a.Makes w)
      (heq : b = { a with focus := .value w, machine := Change.identity.apply a.machine })

/-- Going on in the tree makes no value. -/
theorem gains_of_drawsOn {ws : List Value} {x : Focus × List Pending} (hx : DrawsOn ws x)
    (hws : ∀ w ∈ ws, w.From a.values) {ps : List Pending} (hps : ps ⊆ a.pending) :
    a.Gains { a with focus := x.1, pending := x.2 ++ ps } := by
  obtain ⟨-, hpending, hcallers, hheap⟩ := a.from_values
  refine .known rfl (forall_mem_values.mpr ⟨?_, ?_, hcallers, hheap⟩)
  · exact fun v hv => (hx.1 v hv).trans hws
  · intro p hp v hv
    rcases List.mem_append.mp hp with hp | hp
    · exact (hx.2 p hp v hv).trans hws
    · exact hpending p (hps hp) v hv

/-- A step that changes no more than what is done next and the machine. -/
theorem gains_of_heap {f : Focus} {m : Machine}
    (hserial : m.heap.nextSerial = a.machine.heap.nextSerial)
    (hf : ∀ v ∈ f.values, v.From a.values) (hm : ∀ v ∈ m.heap.values, v.From a.values) :
    a.Gains { a with focus := f, machine := m } := by
  obtain ⟨-, hpending, hcallers, -⟩ := a.from_values
  exact .known hserial (forall_mem_values.mpr ⟨hf, hpending, hcallers, hm⟩)

/-- A call of a builtin passes a value on or makes one. -/
theorem gains_run {b : Builtin} {args : List Value} (hp : a.focus = .act (.run b args)) :
    a.Gains (a.perform (.run b args)) := by
  obtain ⟨hfocus, -, -, hheap⟩ := a.from_values
  rw [hp] at hfocus
  have heffect : (Action.run b args).effect a.env = b.run args >>= fun v => pure (.value v) := rfl
  have hanswers := b.answers_run args
  generalize b.run args = r at heffect hanswers
  cases hanswers with
  | @value v hv =>
    have hrun : (Action.run b args).effect a.env a.machine = .ok (.value v) a.machine := by
      rw [heffect]
      rfl
    rw [perform_of_ok hrun]
    exact gains_of_heap rfl (List.forall_mem_singleton.mpr (hv.trans hfocus)) hheap
  | @fresh make hmake =>
    have hrun : (Action.run b args).effect a.env a.machine =
        .ok (.value (make a.machine.heap.freshIdentity.1))
          (Change.identity.apply a.machine) := by
      rw [heffect]
      rfl
    rw [perform_of_ok hrun]
    exact .made ⟨_, hp, hmake a.env _⟩ rfl
  | print lines =>
    have hrun : (Action.run b args).effect a.env a.machine =
        .ok (.value .null) { a.machine with printer := a.machine.printer.printAll lines } := by
      rw [heffect]
      rfl
    rw [perform_of_ok hrun]
    exact gains_of_heap rfl (List.forall_mem_singleton.mpr (.inl rfl)) hheap
  | error e =>
    have hrun : (Action.run b args).effect a.env a.machine = .error (.error e) a.machine := by
      rw [heffect]
      rfl
    rw [perform_of_error hrun]
    exact gains_of_heap rfl nofun hheap

theorem gains_perform {p : Action} (hp : a.focus = .act p) : a.Gains (a.perform p) := by
  obtain ⟨hfocus, -, -, hheap⟩ := a.from_values
  rw [hp] at hfocus
  obtain ⟨f, c, hdoes, heq⟩ := exists_perform_eq p a.env a.machine.heap
  specialize heq a rfl rfl
  cases hdoes with
  | array vs =>
    rw [heq]
    exact .made ⟨_, hp, .array vs⟩ rfl
  | hash es =>
    rw [heq]
    exact .made ⟨_, hp, .hash es⟩ rfl
  | function f =>
    rw [heq]
    exact .made ⟨_, hp, .function f⟩ rfl
  -- All that a builtin may do is in `gains_run`.
  | run _ _ | runError _ => exact gains_run hp
  | assign name v =>
    rw [heq]
    have hv := hfocus v List.mem_cons_self
    refine gains_of_heap rfl (List.forall_mem_singleton.mpr (.inl rfl)) fun w hw => ?_
    rcases List.mem_cons.mp (Heap.values_set_subset _ _ _ _ hw) with rfl | hw
    · exact hv
    · exact hheap w hw
  -- A value that is found under a name is one of the heap.
  | found hs hv =>
    rw [heq]
    refine gains_of_heap rfl (List.forall_mem_singleton.mpr ?_) hheap
    exact hheap _ (Heap.mem_values.mpr ⟨_, _, _, hs, OrderedMap.mem_of_get? hv⟩)
  | outwards _ _ _ | unbound _ | arity _ | unnamed =>
    rw [heq]
    exact gains_of_heap rfl nofun hheap
  | builtin b =>
    rw [heq]
    exact gains_of_heap rfl (List.forall_mem_singleton.mpr (.inl rfl)) hheap
  | call f scope frame args =>
    rw [heq]
    exact gains_of_heap rfl hfocus fun w hw => hheap w (Heap.values_newScope_subset _ _ hw)
  | bind =>
    rw [heq]
    refine gains_of_heap rfl (fun w hw => hfocus w (List.mem_cons_of_mem _ hw)) fun w hw => ?_
    rcases List.mem_cons.mp (Heap.values_set_subset _ _ _ _ hw) with rfl | hw
    · exact hfocus w List.mem_cons_self
    · exact hheap w hw
  | bound =>
    rw [heq]
    exact gains_of_heap rfl nofun hheap

/-- While a call runs, what its caller was waiting with is kept. -/
theorem gains_enter (a : Moment) (scope : ScopeId) (frame : CallFrame) (body : Block) :
    a.Gains (a.enter scope frame body) := by
  obtain ⟨-, hpending, hcallers, hheap⟩ := a.from_values
  unfold enter
  split
  · exact gains_of_heap rfl nofun hheap
  · refine .known rfl (forall_mem_values.mpr ⟨?_, nofun, ?_, hheap⟩)
    · exact List.forall_mem_singleton.mpr (.inl rfl)
    · exact List.forall_mem_cons.mpr ⟨hpending, hcallers⟩

/-- What waited for an answer goes on with it. -/
theorem gains_resume {r : Except Unwind Value} (hr : a.focus = .ended r) {p : Pending}
    {ps : List Pending} (hpending : a.pending = p :: ps) : a.Gains (a.resume r p ps) := by
  obtain ⟨hfocus, hall, hcallers, hheap⟩ := a.from_values
  rw [hr] at hfocus
  have hps : ps ⊆ a.pending := by simp [hpending]
  have hp := hall p (by simp [hpending])
  cases r with
  | ok v =>
    have hv := hfocus v List.mem_cons_self
    exact gains_of_drawsOn (p.drawsOn_resume v) (List.forall_mem_cons.mpr ⟨hv, hp⟩) hps
  | error u =>
    refine .known rfl (forall_mem_values.mpr ⟨?_, fun q hq => hall q (hps hq), hcallers, hheap⟩)
    show ∀ v ∈ (p.unwind u).values, v.From a.values
    rw [p.values_unwind]
    exact hfocus

/-- A call that ends gives its answer to the caller. -/
theorem gains_leave {r : Except Unwind Value} (hr : a.focus = .ended r) : a.Gains (a.leave r) := by
  obtain ⟨hfocus, hpending, hcallers, hheap⟩ := a.from_values
  rw [hr] at hfocus
  unfold leave
  split
  · exact .known rfl fun v hv => Value.from_of_mem hv
  · next c cs heq =>
    rw [heq, List.forall_mem_cons] at hcallers
    refine .known rfl (forall_mem_values.mpr ⟨?_, hcallers.1, hcallers.2, hheap⟩)
    show ∀ v ∈ answerValues (atBoundary r), v.From a.values
    rw [answerValues_atBoundary]
    exact hfocus

/-- Each step passes values on or makes one. -/
theorem gains_next (a : Moment) : a.Gains a.next := by
  unfold next
  split
  · next t ht =>
    obtain ⟨hfocus, -, -, -⟩ := a.from_values
    rw [ht] at hfocus
    exact gains_of_drawsOn (t.drawsOn_first a.env) hfocus (List.Subset.refl _)
  · next p hp => exact gains_perform hp
  · exact a.gains_enter _ _ _
  · next r hr =>
    split
    · next p ps hpending => exact gains_resume hr hpending
    · exact gains_leave hr

end Moment

end Ember
