import Ember.Proofs.Eval.Stepwise
import Ember.Proofs.Identity.Session

/-!
# What is kept is read back

A value that is bound to a name is found under it until the name is bound again in the same scope.
An argument is bound to its parameter when the body of the function is begun, a `return` gives its
value to the caller, and elements and entries are read as they were stored. In all of this a value
is handed on as it is, with its identity (`Moment.HandsOn`).
-/

namespace Ember

/-! ## Bindings -/

/-- The name is bound to the value in the scope itself. -/
def Heap.Binds (h : Heap) (scope : ScopeId) (name : String) (v : Value) : Prop :=
  ∃ s, h.scope? scope = some s ∧ OrderedMap.get? s.bindings name = some v

namespace Heap

variable {h : Heap} {scope other : ScopeId} {name name' : String} {v w : Value}

theorem binds_set_self (hscope : h.Has scope) : (h.set scope name v).Binds scope name v := by
  obtain ⟨s, hs⟩ := has_iff.mp hscope
  have hs : h.scopes[scope.index]? = some s := hs
  refine ⟨{ s with bindings := OrderedMap.insert name v s.bindings }, ?_, ?_⟩
  · show (h.set scope name v).scopes[scope.index]? = _
    rw [getElem?_set, if_pos rfl, hs]
    rfl
  · exact OrderedMap.get?_insert_self s.bindings name v

/-- A binding stays when another name is bound, or a name in another scope. -/
theorem Binds.set (hb : h.Binds scope name v) (hne : ¬(other = scope ∧ name' = name)) :
    (h.set other name' w).Binds scope name v := by
  obtain ⟨s, hs, hget⟩ := hb
  have hs : h.scopes[scope.index]? = some s := hs
  by_cases hscope : other.index = scope.index
  · have hother : other = scope := congrArg ScopeId.mk hscope
    have hname : name ≠ name' := fun heq => hne ⟨hother, heq.symm⟩
    refine ⟨{ s with bindings := OrderedMap.insert name' w s.bindings }, ?_, ?_⟩
    · show (h.set other name' w).scopes[scope.index]? = _
      rw [getElem?_set, if_pos hscope, hs]
      rfl
    · exact (OrderedMap.get?_insert_of_ne s.bindings hname w).trans hget
  · refine ⟨s, ?_, hget⟩
    show (h.set other name' w).scopes[scope.index]? = _
    rw [getElem?_set, if_neg hscope, hs]

theorem Binds.newScope (hb : h.Binds scope name v) (outer : Option ScopeId) :
    (h.newScope outer).2.Binds scope name v := by
  obtain ⟨s, hs, hget⟩ := hb
  refine ⟨s, ?_, hget⟩
  have hlt : scope.index < h.scopes.size := has_iff.mpr ⟨s, hs⟩
  show (h.newScope outer).2.scopes[scope.index]? = _
  rw [getElem?_newScope, if_neg (Nat.ne_of_lt hlt)]
  exact hs

end Heap

namespace Moment

variable {a b c d : Moment} {scope : ScopeId} {name : String} {v w : Value}

/-- The step from the moment binds the name in the scope, by a `let` or to an argument. -/
inductive Rebinds (a : Moment) (scope : ScopeId) (name : String) : Prop
  | assign {v : Value} (hf : a.focus = .act (.assign name v)) (hs : a.env = scope)
  | parameter {p : Identifier} {ps : List Identifier} {v : Value} {vs : List Value}
      {frame : CallFrame} {body : Block}
      (hf : a.focus = .act (.bind scope (p :: ps) (v :: vs) frame body)) (hname : p.name = name)

/-- A binding stays through a step that does not bind the name again. -/
theorem binds_next (hb : a.machine.heap.Binds scope name v) (ha : ¬a.Rebinds scope name) :
    a.next.machine.heap.Binds scope name v := by
  unfold next
  split
  · exact hb
  · next p hp =>
    obtain ⟨f, c, hdoes, heq⟩ := exists_perform_eq p a.env a.machine.heap
    rw [heq a rfl rfl]
    show (c.onHeap a.machine.heap).Binds scope name v
    -- Only a binding writes to a scope that is there.
    cases hdoes with
    | run hc _ =>
      obtain ⟨s, hs, hget⟩ := hb
      exact ⟨s, by rwa [Heap.scope?, hc a.machine.heap], hget⟩
    | assign name' w =>
      refine hb.set ?_
      rintro ⟨hs, rfl⟩
      exact ha (.assign hp hs)
    | call f outer frame args => exact hb.newScope (some outer)
    | bind =>
      refine hb.set ?_
      rintro ⟨rfl, rfl⟩
      exact ha (.parameter hp rfl)
    | array _ | hash _ | function _ | runError _ | found _ _ | outwards _ _ _ | builtin _
    | unbound _ | arity _ | unnamed | bound => exact hb
  · unfold enter
    split <;> exact hb
  · split
    · unfold resume
      split <;> exact hb
    · unfold leave
      split <;> exact hb

/-- A binding stays through a session as long as the name is not bound again. -/
theorem Through.binds (h : a.Through (fun b => ¬b.Rebinds scope name) b)
    (ha : a.machine.heap.Binds scope name v) : b.machine.heap.Binds scope name v := by
  induction h with
  | refl => exact ha
  | next _ hb ih => exact binds_next ih hb
  | again _ _ hr hm _ node ih =>
    rw [machine_start, hm, machine_of_outcome? hr]
    exact ih

/-- A lookup that comes to a scope in which the name is bound gives the value. -/
theorem next_lookup (hb : a.machine.heap.Binds scope name v)
    (hf : a.focus = .act (.lookup name scope)) : a.next = { a with focus := .value v } := by
  obtain ⟨s, hs, hget⟩ := hb
  obtain ⟨focus, env, pending, callers, m⟩ := a
  obtain rfl : focus = .act (.lookup name scope) := hf
  have hfind : Action.find m.heap name scope = .value v := by
    unfold Action.find
    simp only [hs, hget]
  show Moment.mk (Action.find m.heap name scope) env pending callers m = _
  rw [hfind]

/-! ## Arguments -/

section Arguments

variable {frame : CallFrame} {body : Block} {p : Identifier} {ps qs : List Identifier}
  {vs ws : List Value}

theorem next_bind (c : Context) (m : Machine) (hp : p.isMissing = false) :
    (c.moment (.act (.bind scope (p :: ps) (v :: vs) frame body)) m).next =
      c.moment (.act (.bind scope ps vs frame body))
        { m with heap := m.heap.set scope p.name v } :=
  perform_of_ok (by rw [Action.effect, if_neg (Bool.eq_false_iff.mp hp)]; rfl)

/-- Parameters are bound one after another, and then the body is begun. -/
theorem leadsTo_enter (c : Context) : ∀ (ps : List Identifier) (vs : List Value) (m : Machine),
    ps.length = vs.length → (∀ p ∈ ps, p.isMissing = false) → ∃ n : Machine,
      (c.moment (.act (.bind scope ps vs frame body)) m).LeadsTo
        (c.moment (.enter scope frame body) n) ∧
      ∀ name v, name ∉ ps.map Identifier.name → m.heap.Binds scope name v →
        n.heap.Binds scope name v
  | [], _, m, _, _ => ⟨m, ⟨1, rfl⟩, fun _ _ _ hb => hb⟩
  | _ :: _, [], _, hlength, _ => nomatch hlength
  | p :: ps, v :: vs, m, hlength, hnamed => by
    rw [List.forall_mem_cons] at hnamed
    obtain ⟨n, hleads, hkeeps⟩ := leadsTo_enter c ps vs
      { m with heap := m.heap.set scope p.name v } (Nat.succ.inj hlength) hnamed.2
    refine ⟨n, .step ?_, fun name w hname hb => ?_⟩
    · rw [next_bind c m hnamed.1]
      exact hleads
    · simp only [List.map_cons, List.mem_cons, not_or] at hname
      exact hkeeps name w hname.2 (hb.set fun heq => hname.1 heq.2.symm)

/-- An argument is bound to its parameter when the body is begun. -/
theorem leadsTo_enter_argument (c : Context) (hlength : qs.length = ws.length)
    (hlast : p.name ∉ qs.map Identifier.name) : ∀ (ps : List Identifier) (vs : List Value)
    (m : Machine), ps.length = vs.length → (∀ q ∈ ps ++ p :: qs, q.isMissing = false) →
      m.heap.Has scope → ∃ n : Machine,
        (c.moment (.act (.bind scope (ps ++ p :: qs) (vs ++ v :: ws) frame body)) m).LeadsTo
          (c.moment (.enter scope frame body) n) ∧ n.heap.Binds scope p.name v
  -- The parameters before `p` are bound first, and those behind it leave its binding alone.
  | [], [], m, _, hnamed, hscope => by
    obtain ⟨hp, hqs⟩ := List.forall_mem_cons.mp hnamed
    obtain ⟨n, hleads, hkeeps⟩ := leadsTo_enter c qs ws
      { m with heap := m.heap.set scope p.name v } hlength hqs
    refine ⟨n, .step ?_, hkeeps p.name v hlast (Heap.binds_set_self hscope)⟩
    show (c.moment (.act (.bind scope (p :: qs) (v :: ws) frame body)) m).next.LeadsTo _
    rw [next_bind c m hp]
    exact hleads
  | [], _ :: _, _, hps, _, _ => nomatch hps
  | _ :: _, [], _, hps, _, _ => nomatch hps
  | q :: ps, u :: vs, m, hps, hnamed, hscope => by
    obtain ⟨hq, hnamed⟩ := List.forall_mem_cons.mp hnamed
    have hscope' : (m.heap.set scope q.name u).Has scope := by
      rw [Heap.Has, Heap.size_set]
      exact hscope
    obtain ⟨n, hleads, hbinds⟩ := leadsTo_enter_argument c hlength hlast ps vs
      { m with heap := m.heap.set scope q.name u } (Nat.succ.inj hps) hnamed hscope'
    refine ⟨n, .step ?_, hbinds⟩
    show (c.moment (.act (.bind scope (q :: (ps ++ p :: qs)) (u :: (vs ++ v :: ws)) frame body))
      m).next.LeadsTo _
    rw [next_bind c m hq]
    exact hleads

/-- A call makes a scope and binds each argument to its parameter in it. -/
theorem leadsTo_call_argument {f : FunctionLiteral} (hf : a.focus =
      .act (.call f scope frame (vs ++ v :: ws))) (hparameters : f.parameters = ps ++ p :: qs)
    (hps : ps.length = vs.length) (hqs : qs.length = ws.length)
    (hnamed : ∀ q ∈ f.parameters, q.isMissing = false) (hlast : p.name ∉ qs.map Identifier.name) :
    ∃ d, a.LeadsTo d ∧ d.focus = .enter ⟨a.machine.heap.scopes.size⟩ frame f.body ∧
      d.machine.heap.Binds ⟨a.machine.heap.scopes.size⟩ p.name v := by
  obtain ⟨focus, env, pending, callers, m⟩ := a
  obtain rfl : focus = .act (.call f scope frame (vs ++ v :: ws)) := hf
  have harity : ¬f.arity ≠ (vs ++ v :: ws).length := by
    simp [FunctionLiteral.arity, hparameters, hps, hqs]
  have hscope : (m.heap.newScope (some scope)).2.Has ⟨m.heap.scopes.size⟩ := by
    rw [Heap.Has, Heap.size_newScope]
    exact Nat.lt_succ_self _
  rw [hparameters] at hnamed
  obtain ⟨n, hleads, hbinds⟩ := leadsTo_enter_argument (v := v) ⟨env, pending, callers⟩ hqs hlast
    ps vs { m with heap := (m.heap.newScope (some scope)).2 } hps hnamed hscope
  refine ⟨⟨.enter _ frame f.body, env, pending, callers, n⟩, .step ?_, rfl, hbinds⟩
  show (Moment.perform _ _).LeadsTo _
  rw [perform_of_ok (by rw [Action.effect, if_neg harity]; rfl)]
  show (Moment.mk (.act (.bind _ f.parameters _ frame f.body)) env pending callers _).LeadsTo _
  rw [hparameters]
  exact hleads

end Arguments

end Moment

/-! ## Returning -/

/-- The end of a program comes last in the outermost body, and no other body waits for it. -/
def ProgramLast : List Pending → List Activation → Prop
  | ps, [] => .program ∉ ps.dropLast
  | ps, c :: cs => .program ∉ ps ∧ ProgramLast c.pending cs

theorem ProgramLast.append {ps : List Pending} {cs : List Activation} (h : ProgramLast ps cs)
    {qs : List Pending} (hqs : .program ∉ qs) : ProgramLast (qs ++ ps) cs := by
  cases cs with
  | nil =>
    show .program ∉ (qs ++ ps).dropLast
    rw [List.dropLast_append]
    split
    · exact fun hmem => hqs (List.dropLast_subset qs hmem)
    · exact fun hmem => (List.mem_append.mp hmem).elim hqs h
  | cons c cs => exact ⟨fun hmem => (List.mem_append.mp hmem).elim hqs h.1, h.2⟩

theorem ProgramLast.tail {p : Pending} {ps : List Pending} {cs : List Activation}
    (h : ProgramLast (p :: ps) cs) : ProgramLast ps cs := by
  cases cs with
  | nil =>
    cases ps with
    | nil => exact nofun
    | cons q ps => exact fun hmem => h (List.mem_cons_of_mem p hmem)
  | cons c cs => exact ⟨fun hmem => h.1 (List.mem_cons_of_mem p hmem), h.2⟩

theorem program_not_mem_singleton {p : Pending} (hp : Pending.program ≠ p) :
    Pending.program ∉ [p] := fun h => hp (List.mem_singleton.mp h)

theorem Expr.program_not_mem_first (env : ScopeId) (e : Expr) :
    Pending.program ∉ (e.first env).2 := by
  cases e with
  | identifier name =>
    rw [Expr.first]
    split
    · exact List.not_mem_nil
    · exact List.not_mem_nil
  | integer _ _ | boolean _ _ | string _ _ | array _ _ | hash _ _ | function _ | missing _ =>
    exact List.not_mem_nil
  | unary _ _ _ | binary _ _ _ _ | conditional _ _ _ _ | call _ _ _ | index _ _ _ =>
    exact program_not_mem_singleton Pending.noConfusion

theorem Stmt.program_not_mem_first (s : Stmt) : Pending.program ∉ s.first.2 := by
  cases s with
  | letBinding _ name _ =>
    rw [Stmt.first]
    split
    · exact List.not_mem_nil
    · exact program_not_mem_singleton Pending.noConfusion
  | returning _ _ => exact program_not_mem_singleton Pending.noConfusion
  | expression _ _ | block _ | missing _ => exact List.not_mem_nil

theorem Task.program_not_mem_first (env : ScopeId) (t : Task) :
    Pending.program ∉ (t.first env).2 := by
  cases t with
  | expr e => exact e.program_not_mem_first env
  | stmt s => exact s.program_not_mem_first
  | collect purpose done todo =>
    cases todo with
    | nil => exact List.not_mem_nil
    | cons e es => exact program_not_mem_singleton Pending.noConfusion
  | pairs todo entries =>
    cases todo with
    | nil => exact List.not_mem_nil
    | cons p ps => exact program_not_mem_singleton Pending.noConfusion
  | stmts todo last =>
    cases todo with
    | nil => exact List.not_mem_nil
    | cons s ss => exact program_not_mem_singleton Pending.noConfusion

theorem Pending.program_not_mem_resume (p : Pending) (v : Value) :
    Pending.program ∉ (p.resume v).2 := by
  cases p with
  | key value todo entries =>
    rw [resume]
    split
    · exact List.not_mem_nil
    · exact program_not_mem_singleton Pending.noConfusion
  | left _ _ | indexed _ => exact program_not_mem_singleton Pending.noConfusion
  | collect _ _ _ | entry _ _ _ _ | unary _ | right _ _ | condition _ _ | callee _ _ | index _
  | binding _ | returning | stmts _ | program => exact List.not_mem_nil

namespace Moment

variable {a b : Moment} {v : Value}

theorem programLast_next (h : ProgramLast a.pending a.callers) :
    ProgramLast a.next.pending a.next.callers := by
  unfold next
  split
  · next t ht => exact h.append (t.program_not_mem_first a.env)
  · next p hp =>
    obtain ⟨f, c, -, heq⟩ := exists_perform_eq p a.env a.machine.heap
    rw [heq a rfl rfl]
    exact h
  · unfold enter
    split
    · exact h
    · exact ⟨nofun, h⟩
  · split
    · next p ps hpending =>
      rw [hpending] at h
      unfold resume
      split
      · next v _ => exact h.tail.append (p.program_not_mem_resume v)
      · exact h.tail
    · unfold leave
      split
      · exact h
      · next c cs heq =>
        rw [heq] at h
        exact h.2

theorem programLast_start (m : Machine) (env : ScopeId) (node : Node) :
    ProgramLast (start m env node).pending (start m env node).callers := by
  cases node <;> simp [start, ProgramLast]

theorem Before.programLast (h : a.Before b) (ha : ProgramLast a.pending a.callers) :
    ProgramLast b.pending b.callers := by
  induction h with
  | refl => exact ha
  | next _ _ ih => exact programLast_next ih
  | again _ _ _ _ _ node _ => exact programLast_start _ _ node

/-- A `return` gives up all that waits in the body before the end of the program, and no more. -/
theorem leadsTo_returning (env : ScopeId) (cs : List Activation) (m : Machine) (v : Value)
    (qs : List Pending) : ∀ ps : List Pending, Pending.program ∉ ps →
      (Moment.mk (.unwind (.returning v)) env (ps ++ qs) cs m).LeadsTo
        (Moment.mk (.unwind (.returning v)) env qs cs m)
  | [], _ => .refl _
  | p :: ps, hps => by
    simp only [List.mem_cons, not_or] at hps
    have hp : p.unwind (.returning v) = .unwind (.returning v) := by
      cases p with
      | program => exact absurd rfl hps.1
      | _ => rfl
    refine .step ?_
    show (Moment.mk (p.unwind (.returning v)) env (ps ++ qs) cs m).LeadsTo _
    rw [hp]
    exact leadsTo_returning env cs m v qs ps hps.2

/-- The value of a body, or of a `return` in it, is given to the caller. -/
theorem leadsTo_caller (ha : ProgramLast a.pending a.callers) (hf : a.focus = .value v)
    (hpending : a.pending = [] ∨ ∃ ps, a.pending = .returning :: ps) {c : Activation}
    {cs : List Activation} (hcallers : a.callers = c :: cs) :
    a.LeadsTo ⟨.value v, c.env, c.pending, cs, Eval.popFrame a.machine⟩ := by
  obtain ⟨focus, env, pending, callers, m⟩ := a
  obtain rfl : focus = .value v := hf
  obtain rfl : callers = c :: cs := hcallers
  rcases hpending with hnil | ⟨ps, hcons⟩
  · obtain rfl : pending = [] := hnil
    exact ⟨1, rfl⟩
  · obtain rfl : pending = .returning :: ps := hcons
    have hps : Pending.program ∉ ps := fun hmem => ha.1 (List.mem_cons_of_mem _ hmem)
    have hreturning := leadsTo_returning env (c :: cs) m v [] ps hps
    rw [List.append_nil] at hreturning
    exact .step (hreturning.trans ⟨1, rfl⟩)

/-- The value of a program, or of a `return` outside of all functions, is its outcome. -/
theorem leadsTo_outcome (ha : ProgramLast a.pending a.callers) (hf : a.focus = .value v)
    (hpending : a.pending = [.program] ∨ ∃ ps, a.pending = .returning :: ps ∧ .program ∈ ps)
    (hcallers : a.callers = []) :
    ∃ d, a.LeadsTo d ∧ d.outcome? = some (.value v, a.machine) := by
  obtain ⟨focus, env, pending, callers, m⟩ := a
  obtain rfl : focus = .value v := hf
  obtain rfl : callers = [] := hcallers
  rcases hpending with hlast | ⟨ps, hcons, hmem⟩
  · obtain rfl : pending = [.program] := hlast
    exact ⟨_, ⟨1, rfl⟩, rfl⟩
  · obtain rfl : pending = .returning :: ps := hcons
    -- The end of the program is the last that waits, so all before it is given up.
    have hbefore : Pending.program ∉ ps.dropLast := ProgramLast.tail ha
    have hps : ps.dropLast ++ [.program] = ps := by
      have hconcat := List.dropLast_concat_getLast (List.ne_nil_of_mem hmem)
      have hmem' := hmem
      rw [← hconcat, List.mem_append, List.mem_singleton] at hmem'
      rwa [← hmem'.resolve_left hbefore] at hconcat
    have hreturning := leadsTo_returning env [] m v [.program] ps.dropLast hbefore
    rw [hps] at hreturning
    exact ⟨_, .step (hreturning.trans ⟨1, rfl⟩), rfl⟩

/-! ## Handing on -/

theorem closed_of_opens (ha : a.Opens) : a.Closed := by
  obtain ⟨m, node, hm, rfl⟩ := ha
  refine closed_start ?_ ?_ node
  · rw [hm]
    exact Heap.closed_empty.newScope nofun
  · rw [hm]
    exact Nat.zero_lt_one

theorem programLast_of_opens (ha : a.Opens) : ProgramLast a.pending a.callers := by
  obtain ⟨m, node, -, rfl⟩ := ha
  exact programLast_start m ⟨0⟩ node

theorem Before.closed (h : a.Before b) (ha : a.Closed) : b.Closed := by
  induction h with
  | refl => exact ha
  | next _ _ ih => exact ih.next
  | again _ _ hr hm henv node ih =>
    refine closed_start ?_ henv node
    rw [hm, machine_of_outcome? hr]
    exact ih.heap

/-- Values are handed on as they are, and equal themselves. -/
structure HandsOn (a : Moment) : Prop where
  self : ∀ {v}, a.Has v → evalBinary v .eq v = .ok (.boolean true)
  /-- The value of a `let` is bound to the name. -/
  binding : ∀ {name v ps}, a.focus = .value v → a.pending = .binding name :: ps →
    a.next.next.machine.heap.Binds a.env name v
  /-- What is bound is found until the name is bound again. -/
  lookup : ∀ {scope name v b}, a.machine.heap.Binds scope name v →
    a.Through (fun b => ¬b.Rebinds scope name) b → b.focus = .act (.lookup name scope) →
      b.next = { b with focus := .value v }
  /-- An argument is bound to the parameter unless a later one has the same name. -/
  argument : ∀ {f scope frame ps p qs vs v ws},
    a.focus = .act (.call f scope frame (vs ++ v :: ws)) → f.parameters = ps ++ p :: qs →
      ps.length = vs.length → qs.length = ws.length → (∀ q ∈ f.parameters, q.isMissing = false) →
        p.name ∉ qs.map Identifier.name →
          ∃ d, a.LeadsTo d ∧ d.focus = .enter ⟨a.machine.heap.scopes.size⟩ frame f.body ∧
            d.machine.heap.Binds ⟨a.machine.heap.scopes.size⟩ p.name v
  /-- The value of a body or of a `return` in it is that of the call. -/
  returned : ∀ {v c cs}, a.focus = .value v →
    (a.pending = [] ∨ ∃ ps, a.pending = .returning :: ps) → a.callers = c :: cs →
      a.LeadsTo ⟨.value v, c.env, c.pending, cs, Eval.popFrame a.machine⟩
  /-- The value of a program or of a `return` in it is its outcome. -/
  outcome : ∀ {v}, a.focus = .value v →
    (a.pending = [.program] ∨ ∃ ps, a.pending = .returning :: ps ∧ .program ∈ ps) →
      a.callers = [] → ∃ d, a.LeadsTo d ∧ d.outcome? = some (.value v, a.machine)
  /-- An element is read by its index. -/
  element : ∀ {id vs n v ps}, a.focus = .value (.integer n) →
    a.pending = .index (.array id vs) :: ps → 0 ≤ n → vs[n.toInt.toNat]? = some v →
      a.next = { a with focus := .value v, pending := ps }
  first : ∀ {id vs v}, a.focus = .act (.run .first [.array id (v :: vs)]) →
    a.next = { a with focus := .value v }
  last : ∀ {id vs v}, a.focus = .act (.run .last [.array id (vs ++ [v])]) →
    a.next = { a with focus := .value v }
  /-- What is stored under a key is read by any value that makes the key. -/
  entry : ∀ {id entries hashKey key k v ps}, a.focus = .value key →
    a.pending = .index (.hash id entries) :: ps → key.hashKey? = some hashKey →
      OrderedMap.get? entries hashKey = some (k, v) →
        a.next = { a with focus := .value v, pending := ps }

theorem handsOn_of_before (ha : a.Opens) (hab : a.Before b) : b.HandsOn where
  self hv := evalBinary_self ha hab hv
  binding {name v ps} hf hpending := by
    have henv := (hab.closed (closed_of_opens ha)).env
    obtain ⟨focus, env, pending, callers, m⟩ := b
    obtain rfl : focus = .value v := hf
    obtain rfl : pending = .binding name :: ps := hpending
    exact Heap.binds_set_self henv
  lookup hb hthrough hf := next_lookup (hthrough.binds hb) hf
  argument := leadsTo_call_argument
  returned hf hpending hcallers :=
    leadsTo_caller (hab.programLast (programLast_of_opens ha)) hf hpending hcallers
  outcome hf hpending hcallers :=
    leadsTo_outcome (hab.programLast (programLast_of_opens ha)) hf hpending hcallers
  element {id vs n v ps} hf hpending hn hv := by
    obtain ⟨focus, env, pending, callers, m⟩ := b
    obtain rfl : focus = .value (.integer n) := hf
    obtain rfl : pending = .index (.array id vs) :: ps := hpending
    have hindex : evalIndex (.array id vs) (.integer n) = .ok v := by
      rw [evalIndex, if_neg (Int64.not_lt.mpr hn), hv]
      rfl
    show Moment.mk (.ofExcept (evalIndex (.array id vs) (.integer n))) env ps callers m = _
    rw [hindex]
    rfl
  first {id vs v} hf := by
    obtain ⟨focus, env, pending, callers, m⟩ := b
    obtain rfl : focus = .act (.run .first [.array id (v :: vs)]) := hf
    rfl
  last {id vs v} hf := by
    obtain ⟨focus, env, pending, callers, m⟩ := b
    obtain rfl : focus = .act (.run .last [.array id (vs ++ [v])]) := hf
    show Moment.mk (.value ((vs ++ [v]).getLast?.getD .null)) env pending callers m = _
    rw [List.getLast?_concat]
    rfl
  entry {id entries hashKey key k v ps} hf hpending hkey hget := by
    obtain ⟨focus, env, pending, callers, m⟩ := b
    obtain rfl : focus = .value key := hf
    obtain rfl : pending = .index (.hash id entries) :: ps := hpending
    have hindex : evalIndex (.hash id entries) key = .ok v := by
      simp [evalIndex, hkey, hget]
    show Moment.mk (.ofExcept (evalIndex (.hash id entries) key)) env ps callers m = _
    rw [hindex]
    rfl

end Moment

end Ember
