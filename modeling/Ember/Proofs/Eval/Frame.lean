import Ember.Proofs.Eval.Stepwise

/-!
# Evaluation writes to its own scope

A body binds names in its own scope. A call binds its parameters in a scope that it has made, and so
does its body. `Moment.writes` lists the scopes that may be written to from a moment on. A step
writes to no other scope (`Moment.growsIn_next`), and what it adds to the list is a scope that was
not there before (`Moment.writes_next`).

So of the scopes that were there, only the one in which a node is evaluated may change, by bindings
(`Machine.scopes_kept`). The call of a function value changes none of them.
-/

namespace Ember

theorem OrderedMap.keys_subset_insert {κ α : Type} [DecidableEq κ] (m : OrderedMap κ α) (key : κ)
    (a : α) : keys m ⊆ keys (insert key a m) := by
  rw [keys_insert]
  split
  · exact List.Subset.refl _
  · exact List.subset_append_left _ _

/-! ## Growing heaps -/

/-- The second scope stands where the first one stands, and binds the names that it binds. -/
structure Scope.Grows (s t : Scope) : Prop where
  outer : t.outer = s.outer
  names : OrderedMap.keys s.bindings ⊆ OrderedMap.keys t.bindings

namespace Scope.Grows

variable {s t u : Scope}

theorem refl (s : Scope) : s.Grows s := ⟨rfl, List.Subset.refl _⟩

theorem trans (h : s.Grows t) (h' : t.Grows u) : s.Grows u :=
  ⟨h'.outer.trans h.outer, List.Subset.trans h.names h'.names⟩

theorem insert (s : Scope) (name : String) (v : Value) :
    s.Grows { s with bindings := OrderedMap.insert name v s.bindings } :=
  ⟨rfl, OrderedMap.keys_subset_insert s.bindings name v⟩

end Scope.Grows

/--
The second heap has the scopes of the first one. Only those that are `own` may differ, and in their
bindings only.
-/
structure Heap.GrowsIn (own : ScopeId → Prop) (h h' : Heap) : Prop where
  grows : ∀ {id s}, h.scope? id = some s → ∃ t, h'.scope? id = some t ∧ s.Grows t
  kept : ∀ {id s}, h.scope? id = some s → ¬own id → h'.scope? id = some s

namespace Heap.GrowsIn

variable {own : ScopeId → Prop} {h h' h'' : Heap}

theorem of_scopes_eq (heq : h'.scopes = h.scopes) : GrowsIn own h h' where
  grows {id s} hs := ⟨s, by rwa [scope?, heq], .refl s⟩
  kept hs _ := by rwa [scope?, heq]

theorem trans (hh : GrowsIn own h h') (hh' : GrowsIn own h' h'') : GrowsIn own h h'' where
  grows hs := by
    obtain ⟨t, ht, hst⟩ := hh.grows hs
    obtain ⟨u, hu, htu⟩ := hh'.grows ht
    exact ⟨u, hu, hst.trans htu⟩
  kept hs hown := hh'.kept (hh.kept hs hown) hown

/-- Scopes that are there stay there. -/
theorem has (hh : GrowsIn own h h') {id : ScopeId} (hid : h.Has id) : h'.Has id := by
  obtain ⟨s, hs⟩ := has_iff.mp hid
  obtain ⟨t, ht, -⟩ := hh.grows hs
  exact has_iff.mpr ⟨t, ht⟩

/-- A scope is made behind those that are there. -/
theorem newScope (h : Heap) (outer : Option ScopeId) : GrowsIn own h (h.newScope outer).2 := by
  have hkept : ∀ {id s}, h.scope? id = some s → (h.newScope outer).2.scope? id = some s := by
    intro id s hs
    have hlt : id.index < h.scopes.size := has_iff.mpr ⟨s, hs⟩
    show (h.newScope outer).2.scopes[id.index]? = some s
    rw [getElem?_newScope, if_neg (Nat.ne_of_lt hlt)]
    exact hs
  exact ⟨fun {_ s} hs => ⟨s, hkept hs, .refl s⟩, fun hs _ => hkept hs⟩

/-- A name is bound in a scope that may change. -/
theorem set (h : Heap) {id : ScopeId} (hid : own id) (name : String) (v : Value) :
    GrowsIn own h (h.set id name v) where
  grows {other s} hs := by
    have hs' : h.scopes[other.index]? = some s := hs
    show ∃ t, (h.set id name v).scopes[other.index]? = some t ∧ _
    rw [getElem?_set, hs']
    split
    · exact ⟨_, rfl, .insert s name v⟩
    · exact ⟨s, rfl, .refl s⟩
  kept {other s} hs hown := by
    have hne : id.index ≠ other.index := by
      intro heq
      have : id = other := congrArg ScopeId.mk heq
      exact hown (this ▸ hid)
    show (h.set id name v).scopes[other.index]? = some s
    rw [getElem?_set, if_neg hne]
    exact hs

end Heap.GrowsIn

/-! ## What may be written to -/

/-- The scopes that are written to by what is done next in the scope `env`. -/
def Focus.writes (env : ScopeId) : Focus → List ScopeId
  | .task _ | .act (.assign _ _) => [env]
  | .act (.bind scope _ _ _ _) | .enter scope _ _ => [scope]
  | .act _ | .ended _ => []

/-- A body writes to its scope if anything is left to do in it. -/
def Activation.writes : Activation → List ScopeId
  | ⟨_, []⟩ => []
  | ⟨env, _ :: _⟩ => [env]

theorem Activation.writes_subset (env : ScopeId) (ps : List Pending) :
    writes ⟨env, ps⟩ ⊆ [env] := by
  cases ps with
  | nil => exact List.nil_subset _
  | cons p ps => exact List.Subset.refl _

/-- Going on in the tree writes to the scope of the body only. -/
theorem Focus.InTree.writes_subset {f : Focus} (hf : f.InTree) (env : ScopeId) :
    f.writes env ⊆ [env] := by
  cases hf with
  | task _ | assign _ _ => exact List.Subset.refl _
  | _ => exact List.nil_subset _

theorem Pending.writes_unwind (env : ScopeId) (p : Pending) (u : Unwind) :
    (p.unwind u).writes env = [] := by
  cases p <;> rfl

namespace Moment

/-- The scopes that are written to by what waits in the bodies under way. -/
def waitingWrites (a : Moment) : List ScopeId :=
  (Activation.mk a.env a.pending :: a.callers).flatMap Activation.writes

/-- The scopes that may be written to from a moment on, besides those that are made on the way. -/
def writes (a : Moment) : List ScopeId := a.focus.writes a.env ++ a.waitingWrites

variable {own : ScopeId → Prop} {a : Moment}

theorem env_mem_writes_of_task {t : Task} (h : a.focus = .task t) : a.env ∈ a.writes := by
  simp [writes, h, Focus.writes]

theorem env_mem_writes_of_pending {p : Pending} {ps : List Pending} (h : a.pending = p :: ps) :
    a.env ∈ a.writes := by
  simp [writes, waitingWrites, h, Activation.writes]

/-- Going on in the tree writes to no scope but that of the body and those of its callers. -/
theorem writes_subset_of_inTree {f : Focus} (hf : f.InTree) (ps : List Pending)
    (henv : a.env ∈ a.writes) : writes { a with focus := f, pending := ps } ⊆ a.writes := by
  have hbody : [a.env] ⊆ a.writes := List.cons_subset.mpr ⟨henv, List.nil_subset _⟩
  have hcallers : a.callers.flatMap Activation.writes ⊆ a.writes :=
    List.Subset.trans (List.subset_append_right _ _) (List.subset_append_right _ _)
  refine List.append_subset.mpr ⟨List.Subset.trans (hf.writes_subset a.env) hbody, ?_⟩
  refine List.append_subset.mpr ⟨?_, hcallers⟩
  exact List.Subset.trans (Activation.writes_subset a.env ps) hbody

/-- Where nothing is written to next, what waits is all that writes. -/
theorem writes_subset_of_waiting {b : Moment} (hfocus : b.focus.writes b.env = [])
    (hwaiting : b.waitingWrites ⊆ a.waitingWrites) : b.writes ⊆ a.writes := by
  rw [writes, hfocus]
  exact List.Subset.trans hwaiting (List.subset_append_right _ _)

/-- What an action leads to writes to scopes that are listed, or to the scope that it has made. -/
theorem writes_perform {p : Action} (hp : a.focus = .act p) :
    ∀ s ∈ (a.perform p).writes, s ∈ a.writes ∨ ¬a.machine.heap.Has s := by
  obtain ⟨f, c, hdoes, heq⟩ := exists_perform_eq p a.env a.machine.heap
  rw [heq a rfl rfl]
  intro s hs
  rcases List.mem_append.mp hs with hf | hwaiting
  · cases hdoes with
    | call f scope frame args =>
      rw [List.mem_singleton.mp hf]
      exact .inr (Nat.lt_irrefl _)
    | bind | bound =>
      left
      rw [List.mem_singleton.mp hf]
      simp [writes, hp, Focus.writes]
    | _ => cases hf
  · exact .inl (List.mem_append_right _ hwaiting)

/-- The frame of a call is pushed for a body that writes to the scope of the call. -/
theorem writes_enter_subset {scope : ScopeId} {frame : CallFrame} {body : Block}
    (hf : a.focus = .enter scope frame body) : (a.enter scope frame body).writes ⊆ a.writes := by
  unfold enter
  split
  · exact writes_subset_of_waiting rfl (List.Subset.refl _)
  · rw [writes, writes, hf]
    exact List.Subset.refl _

theorem writes_resume_subset {r : Except Unwind Value} {p : Pending} {ps : List Pending}
    (hpending : a.pending = p :: ps) : (a.resume r p ps).writes ⊆ a.writes := by
  have henv := env_mem_writes_of_pending hpending
  unfold resume
  split
  · next v => exact writes_subset_of_inTree (p.inTree_resume v) _ henv
  · next u =>
    refine writes_subset_of_waiting (p.writes_unwind a.env u) ?_
    show Activation.writes ⟨a.env, ps⟩ ++ _ ⊆ Activation.writes ⟨a.env, a.pending⟩ ++ _
    rw [hpending]
    refine List.append_subset.mpr ⟨?_, List.subset_append_right _ _⟩
    exact List.Subset.trans (Activation.writes_subset a.env ps)
      (List.subset_append_left [a.env] _)

theorem writes_leave_subset {r : Except Unwind Value} (hpending : a.pending = []) :
    (a.leave r).writes ⊆ a.writes := by
  unfold leave
  split
  · exact List.Subset.refl _
  · next c cs hcallers =>
    refine writes_subset_of_waiting rfl ?_
    rw [waitingWrites, waitingWrites, hpending, hcallers]
    exact List.Subset.refl _

/-- What a step adds to the scopes that may be written to was not there before. -/
theorem writes_next (a : Moment) : ∀ s ∈ a.next.writes, s ∈ a.writes ∨ ¬a.machine.heap.Has s := by
  unfold next
  split
  · next t ht =>
    exact fun s hs =>
      .inl (writes_subset_of_inTree (t.inTree_first a.env) _ (env_mem_writes_of_task ht) hs)
  · next p hp => exact writes_perform hp
  · next scope frame body hf => exact fun s hs => .inl (writes_enter_subset hf hs)
  · split
    · next p ps hpending => exact fun s hs => .inl (writes_resume_subset hpending hs)
    · next hpending => exact fun s hs => .inl (writes_leave_subset hpending hs)

/-- A step writes to scopes that are listed, and makes new ones. -/
theorem growsIn_next (hown : ∀ s ∈ a.writes, own s) :
    a.machine.heap.GrowsIn own a.next.machine.heap := by
  unfold next
  split
  · exact .of_scopes_eq rfl
  · next p hp =>
    obtain ⟨f, c, hdoes, heq⟩ := exists_perform_eq p a.env a.machine.heap
    rw [heq a rfl rfl]
    rw [writes, hp] at hown
    have hfocus := (List.forall_mem_append.mp hown).1
    cases hdoes with
    | run hc _ => exact .of_scopes_eq (hc a.machine.heap)
    | assign name v => exact .set _ (hfocus a.env List.mem_cons_self) name v
    | call f scope frame args => exact .newScope _ (some scope)
    | bind => exact .set _ (hfocus _ List.mem_cons_self) _ _
    | _ => exact .of_scopes_eq rfl
  · unfold enter
    split <;> exact .of_scopes_eq rfl
  · split
    · unfold resume
      split <;> exact .of_scopes_eq rfl
    · unfold leave
      split <;> exact .of_scopes_eq rfl

/-! ## Runs -/

/-- The heap has grown in scopes that are `own`, and no others may be written to. -/
structure WritesTo (own : ScopeId → Prop) (h : Heap) (a : Moment) : Prop where
  grown : h.GrowsIn own a.machine.heap
  writes : ∀ s ∈ a.writes, own s

/-- Scopes that were not there at the start may be written to. -/
theorem WritesTo.next {h : Heap} (ha : a.WritesTo own h) (hnew : ∀ s, ¬h.Has s → own s) :
    a.next.WritesTo own h where
  grown := ha.grown.trans (growsIn_next ha.writes)
  writes s hs := (a.writes_next s hs).elim (ha.writes s) fun hs => hnew s (mt ha.grown.has hs)

/-- Of the scopes that were there, the steps write to those that are listed at the start. -/
theorem LeadsTo.growsIn {b : Moment} (h : a.LeadsTo b) (hown : ∀ s ∈ a.writes, own s) :
    a.machine.heap.GrowsIn (fun s => own s ∨ ¬a.machine.heap.Has s) b.machine.heap := by
  have hstart : a.WritesTo (fun s => own s ∨ ¬a.machine.heap.Has s) a.machine.heap :=
    ⟨.of_scopes_eq rfl, fun s hs => .inl (hown s hs)⟩
  exact (h.invariant (fun c hc => WritesTo.next hc fun _ => .inr) hstart).grown

theorem writes_start_subset (m : Machine) (env : ScopeId) (node : Node) :
    (start m env node).writes ⊆ [env] := by
  cases node <;> simp [start, writes, waitingWrites, Focus.writes, Activation.writes]

end Moment

namespace Machine

variable {m n : Machine}

/-- Evaluation changes no scope that was there but the one in which the node is evaluated. -/
theorem Finishes.growsIn {env : ScopeId} {node : Node} {o : Outcome}
    (h : m.Finishes env node o n) :
    m.heap.GrowsIn (fun id => id = env ∨ ¬m.heap.Has id) n.heap := by
  obtain ⟨k, hk⟩ := h
  have hleads : (Moment.start m env node).LeadsTo _ := ⟨k, rfl⟩
  have hwrites : ∀ s ∈ (Moment.start m env node).writes, s = env :=
    fun s hs => List.mem_singleton.mp (Moment.writes_start_subset m env node hs)
  have hgrows := hleads.growsIn hwrites
  rw [Moment.machine_start] at hgrows
  rwa [Moment.machine_of_outcome? hk]

/-- The call of a function value changes no scope that was there. -/
theorem growsIn_applyFunction (hm : m.heap.Closed) {f : FunctionLiteral} {scope : ScopeId}
    {args : List Value} (hscopes : m.heap.HasAll (scope :: scopesOf args)) (frame : CallFrame)
    (budget : Nat) :
    (∀ v n, applyFunction budget f scope frame args m = .ok v n →
        m.heap.GrowsIn (fun id => ¬m.heap.Has id) n.heap) ∧
      ∀ u n, applyFunction budget f scope frame args m = .error u n → u ≠ .exhausted →
        m.heap.GrowsIn (fun id => ¬m.heap.Has id) n.heap := by
  -- Nothing waits for the call, so the scope that it is made in is not written to.
  let c : Context := ⟨scope, [], []⟩
  have hscope : m.heap.Has scope := (Heap.hasAll_cons.mp hscopes).1
  have hclosed : (c.moment (.act (.call f scope frame args)) m).Closed :=
    ⟨hm, hscope, hscopes, nofun, nofun⟩
  have hfollows := Moment.followsCalls_applyFunction budget hclosed
  have hgrows : ∀ focus n, (c.moment (.act (.call f scope frame args)) m).LeadsTo
      (c.moment focus n) → m.heap.GrowsIn (fun id => ¬m.heap.Has id) n.heap := by
    intro focus n h
    have hgrows : m.heap.GrowsIn (fun id => False ∨ ¬m.heap.Has id) n.heap := h.growsIn nofun
    simpa only [false_or] using hgrows
  constructor
  · intro v n hrun
    rw [hrun] at hfollows
    exact hgrows _ n hfollows.leadsTo_of_ok
  · intro u n hrun hu
    rw [hrun] at hfollows
    exact hgrows _ n (hfollows.leadsTo_of_error hu)

/--
In a reached heap, evaluating a node in a scope leaves every other scope that was there as it was,
and the scope itself keeps its names and the scope around it. This is so whether the evaluation ends
in a value, a `return`, an error or a fault. Calling a function value with arguments changes none of
the scopes that were there.
-/
theorem scopes_kept (hm : m.heap.Reached) (budget : Nat) {id : ScopeId} {s : Scope}
    (hs : m.heap.scope? id = some s) :
    (∀ env node o n, m.heap.Has env → m.evalWith budget env node = (o, n) → o ≠ .exhausted →
        (id ≠ env → n.heap.scope? id = some s) ∧
        ∃ t, n.heap.scope? id = some t ∧ t.outer = s.outer ∧
          OrderedMap.keys s.bindings ⊆ OrderedMap.keys t.bindings) ∧
      ∀ identity f scope frame args, m.heap.HasAll (Value.function identity f scope).scopes →
        m.heap.HasAll (scopesOf args) →
          let r := Eval.applyValue (applyFunction budget) (.function identity f scope) frame args m
          (∀ v n, r = .ok v n → n.heap.scope? id = some s) ∧
            ∀ u n, r = .error u n → u ≠ .exhausted → n.heap.scope? id = some s := by
  have hid : m.heap.Has id := Heap.has_iff.mpr ⟨s, hs⟩
  constructor
  · intro env node o n henv h ho
    have hgrows := (finishes_of_evalWith hm.closed henv h ho).growsIn
    obtain ⟨t, ht, houter, hnames⟩ := hgrows.grows hs
    refine ⟨fun hne => hgrows.kept hs ?_, t, ht, houter, hnames⟩
    rintro (heq | hnot)
    · exact hne heq
    · exact hnot hid
  · intro identity f scope frame args hscope hargs r
    have hscopes := Heap.hasAll_cons.mpr ⟨(Heap.hasAll_cons.mp hscope).1, hargs⟩
    obtain ⟨hok, herror⟩ := growsIn_applyFunction hm.closed hscopes frame budget
    exact ⟨fun v n h => (hok v n h).kept hs (not_not_intro hid),
      fun u n h hu => (herror u n h hu).kept hs (not_not_intro hid)⟩

/-- A scope inside the one that binds the two functions; a call in it is refused in the end. -/
theorem scopes_kept_endless :
    let m := ((endless (some 3)).newScope (some ⟨0⟩)).2
    (m.eval ⟨1⟩ .endless).1 = .fault (.callDepth 3) ∧
      (m.eval ⟨1⟩ .endless).2.heap.scope? ⟨0⟩ = Heap.endless.scope? ⟨0⟩ := by
  intro m
  have hfault : (((endless (some 3)).newScope (some ⟨0⟩)).2.eval ⟨1⟩ .endless).1 =
      .fault (.callDepth 3) := by with_unfolding_all rfl
  have houter : ∀ o ∈ some (ScopeId.mk 0), Heap.endless.Has o := by
    rintro _ ⟨⟩
    exact Heap.has_endless
  have hm : m.heap.Reached := .newScope houter Heap.reached_endless
  have henv : m.heap.Has ⟨1⟩ := by decide
  have hne : (m.eval ⟨1⟩ .endless).1 ≠ .exhausted := by simp [m, hfault]
  have hscope : m.heap.scope? ⟨0⟩ = Heap.endless.scope? ⟨0⟩ := rfl
  have hkept := (scopes_kept hm m.callBudget hscope).1 ⟨1⟩ .endless _ _ henv rfl hne
  exact ⟨hfault, hkept.1 (by decide)⟩

end Machine

end Ember
