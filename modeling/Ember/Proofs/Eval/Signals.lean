import Ember.Proofs.Eval.Closed
import Ember.Proofs.Eval.Faults

/-!
# Signals are not data

A `return` and a runtime error unwind; they become values at the boundary of the interpreter, for
whoever asked for the evaluation. The evaluation itself never keeps such a value
(`Machine.signals_not_kept`). It is not bound to a name, not stored in an array or a hash and not
returned, as long as none was there to begin with. So a program never evaluates to a `return`
signal, and it evaluates to an error value only because an error unwound it.

What is there to begin with is what can be reached from the scope of the evaluation: the scopes
around it, and the scopes of the functions bound there. Of the rest of the heap nothing is asked.

The same holds of the condition that a hash keeps each entry under the key that its key value makes.
-/

namespace Ember

/-! ## Parts of a value -/

/-- Both values of an entry are smaller than the hash. -/
theorem sizeOf_lt_of_entry (id : Identity) {es : HashEntries} {e : HashKey × Value × Value}
    (he : e ∈ es) :
    sizeOf e.2.1 < sizeOf (Value.hash id es) ∧ sizeOf e.2.2 < sizeOf (Value.hash id es) := by
  obtain ⟨key, u, v⟩ := e
  have hlt := List.sizeOf_lt_of_mem he
  simp only [Prod.mk.sizeOf_spec, Value.hash.sizeOf_spec] at hlt ⊢
  omega

namespace Value

/-- A value stands in another one, at any depth. -/
inductive Part : Value → Value → Prop
  | whole (v : Value) : Part v v
  | element {w v : Value} {id : Identity} {vs : List Value} (hv : v ∈ vs) (h : Part w v) :
      Part w (.array id vs)
  | key {w k v : Value} {id : Identity} {key : HashKey} {entries : HashEntries}
      (he : (key, k, v) ∈ entries) (h : Part w k) : Part w (.hash id entries)
  | entry {w k v : Value} {id : Identity} {key : HashKey} {entries : HashEntries}
      (he : (key, k, v) ∈ entries) (h : Part w v) : Part w (.hash id entries)
  | returned {w v : Value} (h : Part w v) : Part w (.returnSignal v)

/-- The value is not a signal, and if it is a hash, every key is that of its key value. -/
def IsOrdinary : Value → Prop
  | .returnSignal _ | .error _ => False
  | .hash _ entries => ∀ key k v, (key, k, v) ∈ entries → k.hashKey? = some key
  | _ => True

/-- The value and everything in it is ordinary. -/
def IsData (v : Value) : Prop := ∀ w : Value, w.Part v → w.IsOrdinary

variable {v : Value} {id : Identity}

theorem isData_of_isPlain (h : v.isPlain = true) : v.IsData := by
  intro w hw
  cases v with
  | array _ _ | hash _ _ | function _ _ _ | returnSignal _ | error _ => cases h
  | _ =>
    cases hw
    trivial

theorem isData_array_iff {vs : List Value} : (array id vs).IsData ↔ ∀ v ∈ vs, v.IsData := by
  constructor
  · exact fun h v hv w hw => h w (.element hv hw)
  · intro h w hw
    cases hw with
    | whole => trivial
    | element hv hw => exact h _ hv w hw

theorem isData_hash_iff {entries : HashEntries} : (hash id entries).IsData ↔
    ∀ key k v, (key, k, v) ∈ entries → k.hashKey? = some key ∧ k.IsData ∧ v.IsData := by
  constructor
  · intro h key k v he
    have hkeys : (hash id entries).IsOrdinary := h _ (.whole _)
    exact ⟨hkeys key k v he, fun w hw => h w (.key he hw), fun w hw => h w (.entry he hw)⟩
  · intro h w hw
    cases hw with
    | whole => exact fun key k v he => (h key k v he).1
    | key he hw => exact (h _ _ _ he).2.1 w hw
    | entry he hw => exact (h _ _ _ he).2.2 w hw

theorem isData_function {f : FunctionLiteral} {scope : ScopeId} : (function id f scope).IsData := by
  intro w hw
  cases hw
  trivial

/-- Data is no signal. -/
theorem IsData.isSignal (h : v.IsData) : v.isSignal = false := by
  have hv := h v (.whole v)
  cases v with
  | returnSignal _ | error _ => exact hv.elim
  | _ => rfl

end Value

/-! ## What a scope reaches -/

namespace Heap

/-- A scope is reached through the scopes around one and through the functions bound in one. -/
inductive Reaches (h : Heap) (start : ScopeId) : ScopeId → Prop
  | start : Reaches h start start
  | outer {id o : ScopeId} {s : Scope} (hid : Reaches h start id) (hs : h.scope? id = some s)
      (ho : s.outer = some o) : Reaches h start o
  | captured {id o : ScopeId} {s : Scope} {e : String × Value} (hid : Reaches h start id)
      (hs : h.scope? id = some s) (he : e ∈ s.bindings) (ho : o ∈ e.2.scopes) : Reaches h start o

/-- Every value that is bound in a scope that `start` reaches is data. -/
def DataFrom (h : Heap) (start : ScopeId) : Prop :=
  ∀ id s, h.Reaches start id → h.scope? id = some s → ∀ e ∈ s.bindings, e.2.IsData

end Heap

/-! ## Regions -/

/-- The value is data, and its functions were made in scopes of the region. -/
structure Value.DataIn (own : ScopeId → Prop) (v : Value) : Prop where
  data : v.IsData
  scopes : ∀ o ∈ v.scopes, own o

/--
The values bound in a region of the heap are data, and no link leads out of the region. The scopes
that are not there yet belong to it.
-/
structure Heap.DataIn (own : ScopeId → Prop) (h : Heap) : Prop where
  new : ∀ id, ¬h.Has id → own id
  outer : ∀ {id s o}, own id → h.scope? id = some s → s.outer = some o → own o
  bound : ∀ {id s}, own id → h.scope? id = some s → ∀ e ∈ s.bindings, e.2.DataIn own

section Regions

variable {own : ScopeId → Prop} {v : Value}

namespace Value

theorem dataIn_of_isPlain (h : v.isPlain = true) : v.DataIn own where
  data := isData_of_isPlain h
  scopes := by
    rw [scopes_of_isPlain h]
    exact nofun

theorem dataIn_array_iff {id : Identity} {vs : List Value} :
    (array id vs).DataIn own ↔ ∀ v ∈ vs, v.DataIn own := by
  constructor
  · exact fun h v hv =>
      ⟨isData_array_iff.mp h.data v hv, fun o ho => h.scopes o (scopes_subset_of_mem hv ho)⟩
  · intro h
    refine ⟨isData_array_iff.mpr fun v hv => (h v hv).data, fun o ho => ?_⟩
    obtain ⟨v, hv, ho⟩ := mem_scopesOf.mp ho
    exact (h v hv).scopes o ho

theorem dataIn_hash_iff {id : Identity} {entries : HashEntries} :
    (hash id entries).DataIn own ↔ ∀ key k v, (key, k, v) ∈ entries →
      k.hashKey? = some key ∧ k.DataIn own ∧ v.DataIn own := by
  constructor
  · intro h key k v he
    obtain ⟨hkey, hk, hv⟩ := isData_hash_iff.mp h.data key k v he
    have hscopes : ∀ o, o ∈ k.scopes ∨ o ∈ v.scopes → own o := fun o ho =>
      h.scopes o (mem_scopesOfEntries.mpr ⟨key, k, v, he, ho⟩)
    exact ⟨hkey, ⟨hk, fun o ho => hscopes o (.inl ho)⟩, ⟨hv, fun o ho => hscopes o (.inr ho)⟩⟩
  · intro h
    refine ⟨isData_hash_iff.mpr fun key k v he => ?_, fun o ho => ?_⟩
    · obtain ⟨hkey, hk, hv⟩ := h key k v he
      exact ⟨hkey, hk.data, hv.data⟩
    · obtain ⟨key, k, v, he, ho⟩ := mem_scopesOfEntries.mp ho
      obtain ⟨-, hk, hv⟩ := h key k v he
      exact ho.elim (hk.scopes o) (hv.scopes o)

theorem dataIn_function_iff {id : Identity} {f : FunctionLiteral} {scope : ScopeId} :
    (function id f scope).DataIn own ↔ own scope :=
  ⟨fun h => h.scopes scope List.mem_cons_self,
    fun h => ⟨isData_function, fun _ ho => List.mem_singleton.mp ho ▸ h⟩⟩

end Value

namespace Heap.DataIn

variable {h : Heap}

/-- The region takes in what its scopes reach. -/
theorem of_reaches (hh : h.DataIn own) {start id : ScopeId} (hstart : own start)
    (hid : h.Reaches start id) : own id := by
  induction hid with
  | start => exact hstart
  | outer _ hs ho ih => exact hh.outer ih hs ho
  | captured _ hs he ho ih => exact (hh.bound ih hs _ he).scopes _ ho

theorem dataFrom (hh : h.DataIn own) {start : ScopeId} (hstart : own start) : h.DataFrom start :=
  fun _ _ hid hs e he => (hh.bound (hh.of_reaches hstart hid) hs e he).data

/-- A name is looked up in scopes of the region only. -/
theorem lookup (hh : h.DataIn own) {id : ScopeId} (hid : own id) {name : String}
    (hv : h.lookup id name = some v) : v.DataIn own := by
  obtain ⟨s, hs, hget⟩ := List.exists_of_findSome?_eq_some hv
  obtain ⟨i, hi, hscope⟩ := exists_of_mem_chain hh.outer hid hs
  exact hh.bound hi hscope _ (OrderedMap.mem_of_get? hget)

theorem set (hh : h.DataIn own) (id : ScopeId) (name : String) (hv : v.DataIn own) :
    (h.set id name v).DataIn own where
  new i hi := hh.new i fun hhas => hi (by rw [Has, size_set]; exact hhas)
  outer {i s o} hown hs ho := by
    have hs : (h.set id name v).scopes[i.index]? = some s := hs
    rw [getElem?_set] at hs
    split at hs
    · obtain ⟨t, ht, rfl⟩ := Option.map_eq_some_iff.mp hs
      exact hh.outer hown ht ho
    · exact hh.outer hown hs ho
  bound {i s} hown hs e he := by
    have hs : (h.set id name v).scopes[i.index]? = some s := hs
    rw [getElem?_set] at hs
    split at hs
    · obtain ⟨t, ht, rfl⟩ := Option.map_eq_some_iff.mp hs
      rcases OrderedMap.eq_or_mem_of_mem_insert he with rfl | he
      · exact hv
      · exact hh.bound hown ht e he
    · exact hh.bound hown hs e he

theorem newScope (hh : h.DataIn own) {o : ScopeId} (ho : own o) :
    (h.newScope (some o)).2.DataIn own where
  new i hi := hh.new i fun hhas => hi (by rw [Has, size_newScope]; exact Nat.lt_succ_of_lt hhas)
  outer {i s o'} hown hs ho' := by
    have hs : (h.newScope (some o)).2.scopes[i.index]? = some s := hs
    rw [getElem?_newScope] at hs
    split at hs
    · cases hs
      cases ho'
      exact ho
    · exact hh.outer hown hs ho'
  bound {i s} hown hs e he := by
    have hs : (h.newScope (some o)).2.scopes[i.index]? = some s := hs
    rw [getElem?_newScope] at hs
    split at hs
    · cases hs
      cases he
    · exact hh.bound hown hs e he

end Heap.DataIn

/-- If `env` reaches no signal, what it reaches and what is not there yet is a region of data. -/
theorem Heap.DataFrom.dataIn {h : Heap} {env : ScopeId} (hh : h.DataFrom env) :
    h.DataIn fun id => h.Reaches env id ∨ ¬h.Has id where
  new _ hid := .inr hid
  outer {id s o} hid hs ho := by
    have hreaches := hid.resolve_right (not_not_intro (has_iff.mpr ⟨s, hs⟩))
    exact .inl (.outer hreaches hs ho)
  bound {id s} hid hs e he := by
    have hreaches := hid.resolve_right (not_not_intro (has_iff.mpr ⟨s, hs⟩))
    exact ⟨hh id s hreaches hs e he, fun o ho => .inl (.captured hreaches hs he ho)⟩

end Regions

/-! ## The discipline -/

/-- Values are data of a region, whether they are answers, bound or on their way out of a body. -/
def Discipline.region (own : ScopeId → Prop) : Discipline where
  shape := .any
  Inv m := m.heap.DataIn own
  Step _ _ := True
  Good _ v := v.DataIn own
  Unwinds _ u := ∀ v, u = .returning v → v.DataIn own

namespace Discipline

variable {own : ScopeId → Prop} {m : Machine}

theorem lawful_region {env : ScopeId} (henv : own env) : (region own).Lawful env where
  refl _ := trivial
  trans _ _ := trivial
  mono _ hv := hv
  plain _ _ h := Value.dataIn_of_isPlain h
  element h hv := Value.dataIn_array_iff.mp h _ hv
  entry h he := (Value.dataIn_hash_iff.mp h _ _ _ he).2.2
  lookup hm hv := Heap.DataIn.lookup hm henv hv
  bindName hm _ hv := .ok () _ rfl (Heap.DataIn.set hm env _ hv) trivial trivial
  array hm hvs := .ok _ _ rfl ⟨hm.new, hm.outer, hm.bound⟩ trivial (Value.dataIn_array_iff.mpr hvs)
  hash hm hes := .ok _ _ rfl ⟨hm.new, hm.outer, hm.bound⟩ trivial (Value.dataIn_hash_iff.mpr hes)
  function hm _ :=
    .ok _ _ rfl ⟨hm.new, hm.outer, hm.bound⟩ trivial (Value.dataIn_function_iff.mpr henv)
  println _ hm := .ok () _ rfl hm trivial trivial
  error _ _ := nofun
  returning hv := by
    rintro _ ⟨⟩
    exact hv
  placeholder _ _ _ := nofun
  unnamed _ _ _ _ := nofun

/-- A scope that is made was not there before, so it belongs to the region. -/
theorem lawfulIn_region (own : ScopeId → Prop) : (region own).LawfulIn own where
  lawful := lawful_region
  function hf := ⟨FunctionLiteral.hasShape_any _, Value.dataIn_function_iff.mp hf⟩
  newScope ho hm :=
    .ok _ _ rfl (Heap.DataIn.newScope hm ho) trivial (hm.new _ (Nat.lt_irrefl _))

theorem applies_region (own : ScopeId → Prop) (budget : Nat) :
    (region own).Applies (applyFunction budget) := by
  refine (lawfulIn_region own).applyFunction (fun frame _ hm hbody => ?_) (fun _ => nofun) budget
  refine keeps_inFrame hm hbody (fun _ _ => ⟨trivial, nofun⟩) ?_ (fun _ _ h => h) (fun _ _ h => h)
    fun _ v h => h v rfl
  exact fun _ _ => ⟨hm, fun _ hn _ => ⟨hn, trivial⟩⟩

end Discipline

/-! ## Evaluation -/

variable {own : ScopeId → Prop} {m : Machine} {env : ScopeId}

/-- Evaluating any node in a scope of a region keeps the region free of signals. -/
theorem Discipline.keeps_runNode_region (henv : own env) (hm : m.heap.DataIn own) (budget : Nat)
    (node : Node) :
    (region own).Keeps m (runNode (applyFunction budget) env node) (region own).Good := by
  have hlaw := lawful_region henv
  have ha := applies_region own budget
  cases node with
  | program p => exact hlaw.program ha (fun _ v h => h v rfl) (bodyHasShape_any p.statements) hm
  | statement s => exact hlaw.stmt ha s s.hasShape_any hm
  | expression e => exact hlaw.expr ha e e.hasShape_any hm
  | missing => exact hlaw.throw hm nofun

/-- A program does not unwind with a `return`. -/
theorem runProgram_ne_returning (apply : Apply) (p : Program) (v : Value) (n : Machine) :
    runProgram apply env p m ≠ .error (.returning v) n := by
  unfold runProgram
  split
  · exact nofun
  · next hne => exact fun h => hne v n h

namespace Machine

theorem dataIn_evalWith (henv : own env) (hm : m.heap.DataIn own) (budget : Nat) (node : Node) :
    (m.evalWith budget env node).2.heap.DataIn own := by
  unfold evalWith
  cases Discipline.keeps_runNode_region henv hm budget node with
  | ok v n run inv _ _ =>
    rw [run]
    exact inv
  | error u n run inv _ _ =>
    rw [run]
    cases u <;> exact inv

/-- An answer is data, or a `return` with data that no program ended, or an error that unwound. -/
theorem value_cases (henv : own env) (hm : m.heap.DataIn own) {budget : Nat} {node : Node}
    {v : Value} (hv : (m.evalWith budget env node).1 = .value v) :
    v.DataIn own ∨ (∃ w, v = .returnSignal w ∧ w.DataIn own ∧ ∀ p, node ≠ .program p) ∨
      ∃ e, v = .error e.message ∧ runNode (applyFunction budget) env node m
        = .error (.error e) (m.evalWith budget env node).2 := by
  unfold evalWith at hv ⊢
  cases Discipline.keeps_runNode_region henv hm budget node with
  | ok w n run _ _ answer =>
    rw [run] at hv
    cases hv
    exact .inl answer
  | error u n run _ _ unwinds =>
    rw [run] at hv ⊢
    cases u with
    | returning w =>
      cases hv
      refine .inr (.inl ⟨w, rfl, unwinds w rfl, ?_⟩)
      rintro p rfl
      exact runProgram_ne_returning _ p w n run
    | error e =>
      cases hv
      exact .inr (.inr ⟨e, rfl, rfl⟩)
    | fault _ | exhausted => cases hv

/--
A node is evaluated in a scope from which no signal can be reached, and from which every hash that
can be reached has each entry under the key of its key value. Afterwards this is so again, for that
scope and for those that the answer holds, and an answer that is not a signal has no signal in it.
A signal `return` has none in it either, and is not the answer of a program. An error is the answer
exactly if an error unwound the evaluation.
-/
theorem signals_not_kept (hm : m.heap.DataFrom env) (budget : Nat) (node : Node) :
    let r := m.evalWith budget env node
    r.2.heap.DataFrom env ∧
      (∀ v, r.1 = .value v →
        (v.isSignal = false → v.IsData) ∧ ∀ id ∈ v.scopes, r.2.heap.DataFrom id) ∧
      (∀ v, r.1 = .value (.returnSignal v) → v.IsData ∧ ∀ p, node ≠ .program p) ∧
      ∀ message, r.1 = .value (.error message) ↔
        ∃ e, runNode (applyFunction budget) env node m = .error (.error e) r.2 ∧
          e.message = message := by
  intro r
  have henv : m.heap.Reaches env env ∨ ¬m.heap.Has env := .inl .start
  have hheap : r.2.heap.DataIn _ := dataIn_evalWith henv hm.dataIn budget node
  refine ⟨hheap.dataFrom henv, fun v hv => ?_, fun v hv => ?_, fun message => ⟨fun hv => ?_, ?_⟩⟩
  · rcases value_cases henv hm.dataIn hv with hdata | ⟨w, rfl, hw, -⟩ | ⟨e, rfl, -⟩
    · exact ⟨fun _ => hdata.data, fun id hid => hheap.dataFrom (hdata.scopes id hid)⟩
    · exact ⟨nofun, fun id hid => hheap.dataFrom (hw.scopes id hid)⟩
    · exact ⟨nofun, nofun⟩
  · rcases value_cases henv hm.dataIn hv with hdata | ⟨w, ⟨⟩, hw, hnode⟩ | ⟨e, ⟨⟩, -⟩
    · cases hdata.data.isSignal
    · exact ⟨hw.data, hnode⟩
  · rcases value_cases henv hm.dataIn hv with hdata | ⟨w, ⟨⟩, -⟩ | ⟨e, ⟨⟩, hrun⟩
    · cases hdata.data.isSignal
    · exact ⟨e, hrun, rfl⟩
  · rintro ⟨e, hrun, rfl⟩
    show (Outcome.ofResult (runNode (applyFunction budget) env node m)).1 = _
    rw [hrun]
    rfl

end Machine

/-! ### A function in a hash -/

/-- A scope that binds a hash. Under its one key there is a function that calls the hash. -/
def Heap.shelf : Heap :=
  (empty.newScope none).2.set ⟨0⟩ "shelf"
    (.hash ⟨0⟩ [(.string "f", .string "f", .function ⟨1⟩ (.calling "shelf") ⟨0⟩)])

theorem Heap.dataFrom_shelf : shelf.DataFrom ⟨0⟩ := by
  intro id s _ hs e he
  have hshelf : (Value.hash ⟨0⟩ [(.string "f", .string "f",
      .function ⟨1⟩ (.calling "shelf") ⟨0⟩)]).IsData := by
    refine Value.isData_hash_iff.mpr ?_
    rintro key k v hmem
    cases List.mem_singleton.mp hmem
    exact ⟨rfl, Value.isData_of_isPlain rfl, Value.isData_function⟩
  obtain ⟨_ | i⟩ := id
  · cases hs
    cases List.mem_singleton.mp he
    exact hshelf
  · cases hs

/-- The function is called and its value returned, but there is an error in its body. -/
theorem Machine.signals_not_kept_shelf :
    let t := Token.endOfInput
    let callee := Expr.index t (.identifier ⟨t, "shelf"⟩) (.string t "f")
    let p : Program := ⟨[.returning t (.call t callee [])], []⟩
    let m : Machine := ⟨.shelf, .empty (some 3), .fresh⟩
    let r := m.evalWith 3 ⟨0⟩ (.program p)
    r.1 = .value (.error "not a function: HASH") ∧ r.2.heap.DataFrom ⟨0⟩ ∧
      ∃ e, runNode (applyFunction 3) ⟨0⟩ (.program p) m = .error (.error e) r.2 ∧
        e.message = "not a function: HASH" := by
  intro t callee p m r
  have hr : r.1 = .value (.error "not a function: HASH") := by with_unfolding_all rfl
  obtain ⟨hheap, -, -, herror⟩ :=
    signals_not_kept (m := m) Heap.dataFrom_shelf 3 (.program p)
  exact ⟨hr, hheap, (herror _).mp hr⟩

end Ember
