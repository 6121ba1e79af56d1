import Mathlib.Data.Fin.Tuple.Basic
import Ember.Proofs.Eval.Bindings

/-!
# Handles to scopes

Environments are handles to scopes. They are made, cloned and set in any order, and every handle
that there ever was can be used again. A `History` is a sequence of such operations; only handles
that were made before occur in it.

What can be looked up is said without a heap. The scopes are numbered in the order in which they
were made, and a handle has the number of its scope (`History.frame`). The chain of a scope is fixed
when the scope is made (`History.chain`), and a name has in a scope the value that it was last set
to there (`History.lastSet`). The heap that the operations leave behind agrees (`History.get_eq`).
-/

namespace Ember

/-! ## Lookup along the links -/

namespace Heap

/--
What is found when a name is looked up in a scope and, as long as it is not bound, in the scope
around it. Every link is followed, and no account is taken of which scope is older.
-/
inductive Finds (h : Heap) (name : String) : ScopeId → Option Value → Prop
  | here {id : ScopeId} {v : Value} (bound : h.binding? id name = some v) : Finds h name id (some v)
  | outer {id o : ScopeId} {r : Option Value} (free : h.binding? id name = none)
      (link : h.outer? id = some o) (rest : Finds h name o r) : Finds h name id r
  | nowhere {id : ScopeId} (free : h.binding? id name = none) (last : h.outer? id = none) :
      Finds h name id none

theorem Finds.unique {h : Heap} {name : String} {id : ScopeId} {r r' : Option Value}
    (hr : h.Finds name id r) (hr' : h.Finds name id r') : r = r' := by
  induction hr with
  | here bound =>
    cases hr' with
    | here bound' => exact bound.symm.trans bound'
    | outer free | nowhere free => cases bound.symm.trans free
  | outer free link _ ih =>
    cases hr' with
    | here bound => cases free.symm.trans bound
    | outer _ link' rest =>
      cases link.symm.trans link'
      exact ih rest
    | nowhere _ last => cases link.symm.trans last
  | nowhere free last =>
    cases hr' with
    | here bound => cases free.symm.trans bound
    | outer _ link => cases last.symm.trans link
    | nowhere => rfl

end Heap

/-! ## Histories -/

/-- Operations on handles to scopes, after which there are `n` handles. -/
inductive History : Nat → Type
  | start : History 0
  /-- A handle to a new scope, inside that of a handle or inside none. -/
  | scope {n : Nat} (past : History n) (outer : Option (Fin n)) : History (n + 1)
  /-- Another handle to the scope of a handle. -/
  | clone {n : Nat} (past : History n) (e : Fin n) : History (n + 1)
  /-- A name is bound in the scope of a handle. -/
  | set {n : Nat} (past : History n) (e : Fin n) (name : String) (v : Value) : History n

/-- A heap and handles to scopes in it. -/
@[ext]
structure Handles (n : Nat) where
  heap : Heap
  handle : Fin n → ScopeId

namespace History

/-- What the operations make of the heap, and the handles that they give out. -/
def run : {n : Nat} → History n → Handles n
  | _, .start => ⟨.empty, Fin.elim0⟩
  | _, .scope past outer =>
    let (id, heap) := past.run.heap.newScope (outer.map past.run.handle)
    ⟨heap, Fin.snoc past.run.handle id⟩
  | _, .clone past e => ⟨past.run.heap, Fin.snoc past.run.handle (past.run.handle e)⟩
  | _, .set past e name v => ⟨past.run.heap.set (past.run.handle e) name v, past.run.handle⟩

/-- The value of a name, looked up through a handle. -/
def get {n : Nat} (h : History n) (e : Fin n) (name : String) : Option Value :=
  h.run.heap.lookup (h.run.handle e) name

/-- How many scopes were made. -/
def frames : {n : Nat} → History n → Nat
  | _, .start => 0
  | _, .scope past _ => past.frames + 1
  | _, .clone past _ | _, .set past _ _ _ => past.frames

/-- The number of the scope that a handle is to. -/
def frame : {n : Nat} → History n → Fin n → Nat
  | _, .start => Fin.elim0
  | _, .scope past _ => Fin.snoc past.frame past.frames
  | _, .clone past e => Fin.snoc past.frame (past.frame e)
  | _, .set past _ _ _ => past.frame

/-- The scopes that a name is looked up in: a scope and those around it, the nearest first. -/
def chain : {n : Nat} → History n → Nat → List Nat
  | _, .start, _ => []
  | _, .scope past outer, f =>
    if f = past.frames then f :: outer.elim [] fun e => past.chain (past.frame e)
    else past.chain f
  | _, .clone past _, f | _, .set past _ _ _, f => past.chain f

/-- The value that a name was last set to in a scope. -/
def lastSet : {n : Nat} → History n → Nat → String → Option Value
  | _, .start, _, _ => none
  | _, .scope past _, f, name | _, .clone past _, f, name => past.lastSet f name
  | _, .set past e other v, f, name =>
    if past.frame e = f ∧ other = name then some v else past.lastSet f name

variable {n : Nat}

theorem frame_lt (h : History n) (e : Fin n) : h.frame e < h.frames := by
  induction h with
  | start => exact e.elim0
  | scope past outer ih =>
    induction e using Fin.lastCases with
    | last => simp [frame, frames]
    | cast e => simpa [frame, frames] using Nat.lt_succ_of_lt (ih e)
  | clone past c ih =>
    induction e using Fin.lastCases with
    | last => simpa [frame, frames] using ih c
    | cast e => simpa [frame, frames] using ih e
  | set past c name v ih => exact ih e

theorem size_run (h : History n) : h.run.heap.scopes.size = h.frames := by
  induction h with
  | start => rfl
  | scope past outer ih => exact (Heap.size_newScope _ _).trans (congrArg (· + 1) ih)
  | clone past e ih => exact ih
  | set past e name v ih => exact (Heap.size_set _ _ _ _).trans ih

/-- A scope has its number in the heap. -/
theorem handle_run (h : History n) (e : Fin n) : h.run.handle e = ⟨h.frame e⟩ := by
  induction h with
  | start => exact e.elim0
  | scope past outer ih =>
    induction e using Fin.lastCases with
    | last => simp [run, frame, Heap.newScope, size_run]
    | cast e => simpa [run, frame] using ih e
  | clone past c ih =>
    induction e using Fin.lastCases with
    | last => simpa [run, frame] using ih c
    | cast e => simpa [run, frame] using ih e
  | set past c name v ih => exact ih e

theorem map_handle_run (h : History n) (outer : Option (Fin n)) :
    outer.map h.run.handle = (outer.map h.frame).map ScopeId.mk := by
  rw [Option.map_map]
  exact congrArg (outer.map ·) (funext h.handle_run)

theorem has_run_iff (h : History n) {f : Nat} : h.run.heap.Has ⟨f⟩ ↔ f < h.frames := by
  rw [Heap.Has, size_run]

/-- In the heap a scope binds a name to the value that it was last set to. -/
theorem binding?_run (h : History n) (f : Nat) (name : String) :
    h.run.heap.binding? ⟨f⟩ name = h.lastSet f name := by
  induction h with
  | start => rfl
  | scope past outer ih => exact (Heap.binding?_newScope _ _ _ _).trans ih
  | clone past e ih => exact ih
  | set past e other v ih =>
    have hhas := past.has_run_iff.mpr (past.frame_lt e)
    rw [lastSet, ← ih]
    refine (Heap.binding?_set _ _ _ _ _ _).trans ?_
    rw [handle_run]
    refine if_congr ?_ rfl rfl
    constructor
    · rintro ⟨hid, hname, -⟩
      cases hid
      exact ⟨rfl, hname⟩
    · rintro ⟨rfl, hname⟩
      exact ⟨rfl, hname, hhas⟩

theorem outer?_run_scope (past : History n) (outer : Option (Fin n)) (f : Nat) :
    (past.scope outer).run.heap.outer? ⟨f⟩ =
      if f = past.frames then outer.map past.run.handle else past.run.heap.outer? ⟨f⟩ := by
  refine (Heap.outer?_newScope _ _ _).trans (if_congr ?_ rfl rfl)
  rw [size_run, ScopeId.mk.injEq]

theorem chain_scope_of_lt {past : History n} (outer : Option (Fin n)) {f : Nat}
    (hf : f < past.frames) : (past.scope outer).chain f = past.chain f :=
  if_neg (Nat.ne_of_lt hf)

/-- The links of the heap go along the chain, to older and older scopes. -/
theorem exists_outer?_run (h : History n) {f : Nat} (hf : f < h.frames) :
    ∃ outer : Option Nat, h.run.heap.outer? ⟨f⟩ = outer.map ScopeId.mk ∧
      h.chain f = f :: outer.elim [] h.chain ∧ ∀ o ∈ outer, o < f := by
  induction h with
  | start => cases hf
  | scope past outer ih =>
    rw [outer?_run_scope]
    rcases Nat.lt_succ_iff_lt_or_eq.mp hf with hf | rfl
    · obtain ⟨around, hlink, hchain, holder⟩ := ih hf
      refine ⟨around, (if_neg (Nat.ne_of_lt hf)).trans hlink, ?_, holder⟩
      rw [chain_scope_of_lt outer hf, hchain]
      cases around with
      | none => rfl
      | some o =>
        exact congrArg (f :: ·) (chain_scope_of_lt outer (Nat.lt_trans (holder o rfl) hf)).symm
    · refine ⟨outer.map past.frame, ?_, (if_pos rfl).trans ?_, ?_⟩
      · rw [if_pos rfl, map_handle_run]
      · cases outer with
        | none => rfl
        | some e =>
          exact congrArg (past.frames :: ·) (chain_scope_of_lt (some e) (past.frame_lt e)).symm
      · intro o ho
        obtain ⟨e, -, rfl⟩ := Option.mem_map.mp ho
        exact past.frame_lt e
  | clone past e ih => exact ih hf
  | set past e name v ih =>
    obtain ⟨outer, hlink, hchain⟩ := ih hf
    exact ⟨outer, (Heap.outer?_set _ _ _ _ _).trans hlink, hchain⟩

/-- A chain goes to older and older scopes. -/
theorem pairwise_chain (h : History n) {f : Nat} (hf : f < h.frames) :
    (h.chain f).Pairwise (· > ·) ∧ ∀ g ∈ h.chain f, g ≤ f := by
  induction f using Nat.strongRecOn with
  | ind f ih =>
    obtain ⟨outer, -, hchain, holder⟩ := h.exists_outer?_run hf
    rw [hchain]
    cases outer with
    | none => simp
    | some o =>
      have ho : o < f := holder o rfl
      obtain ⟨hpairwise, hle⟩ := ih o ho (Nat.lt_trans ho hf)
      have hlt : ∀ g ∈ h.chain o, g < f := fun g hg => Nat.lt_of_le_of_lt (hle g hg) ho
      refine ⟨List.pairwise_cons.mpr ⟨hlt, hpairwise⟩, ?_⟩
      exact List.forall_mem_cons.mpr ⟨Nat.le_refl f, fun g hg => Nat.le_of_lt (hlt g hg)⟩

/-- What is found along the links is the value of the nearest scope that has the name. -/
theorem finds_run (h : History n) {f : Nat} (hf : f < h.frames) (name : String) :
    h.run.heap.Finds name ⟨f⟩ ((h.chain f).findSome? fun g => h.lastSet g name) := by
  induction f using Nat.strongRecOn with
  | ind f ih =>
    obtain ⟨outer, hlink, hchain, holder⟩ := h.exists_outer?_run hf
    have hbinding := h.binding?_run f name
    rw [hchain, List.findSome?_cons]
    cases hset : h.lastSet f name with
    | some v => exact .here (hbinding.trans hset)
    | none =>
      cases outer with
      | none => exact .nowhere (hbinding.trans hset) hlink
      | some o =>
        have ho : o < f := holder o rfl
        exact .outer (hbinding.trans hset) hlink (ih o ho (Nat.lt_trans ho hf))

theorem finds_lookup_run (h : History n) {f : Nat} (hf : f < h.frames) (name : String) :
    h.run.heap.Finds name ⟨f⟩ (h.run.heap.lookup ⟨f⟩ name) := by
  induction f using Nat.strongRecOn with
  | ind f ih =>
    obtain ⟨outer, hlink, -, holder⟩ := h.exists_outer?_run hf
    rw [Heap.lookup_eq, hlink]
    cases hbinding : h.run.heap.binding? ⟨f⟩ name with
    | some v => exact .here hbinding
    | none =>
      cases outer with
      | none => exact .nowhere hbinding hlink
      | some o =>
        have ho : o < f := holder o rfl
        rw [Option.none_or, Option.map_some, Option.bind_some, if_pos ho]
        exact .outer hbinding hlink (ih o ho (Nat.lt_trans ho hf))

theorem get_eq (h : History n) (e : Fin n) (name : String) :
    h.get e name = (h.chain (h.frame e)).findSome? fun f => h.lastSet f name := by
  rw [get, handle_run]
  exact (h.finds_lookup_run (h.frame_lt e) name).unique (h.finds_run (h.frame_lt e) name)

/-! ### Setting a name -/

section Set

variable (h : History n) {c e : Fin n} {name : String} (v : Value) {near far : List Nat}

/-- In other scopes nothing was set. -/
theorem findSome?_lastSet_set {fs : List Nat} (hfs : h.frame c ∉ fs) (other : String) :
    (fs.findSome? fun f => (h.set c other v).lastSet f name) =
      fs.findSome? fun f => h.lastSet f name := by
  induction fs with
  | nil => rfl
  | cons f fs ih =>
    obtain ⟨hf, hfs⟩ := List.ne_and_not_mem_of_not_mem_cons hfs
    have hsame : (h.set c other v).lastSet f name = h.lastSet f name := if_neg fun hset => hf hset.1
    rw [List.findSome?_cons, List.findSome?_cons, hsame, ih hfs]

theorem get_set_of_notMem (hc : h.frame c ∉ h.chain (h.frame e)) (other : String) :
    (h.set c other v).get e name = h.get e name := by
  rw [get_eq, get_eq]
  exact h.findSome?_lastSet_set v hc other

theorem get_set_of_ne {other : String} (hname : other ≠ name) :
    (h.set c other v).get e name = h.get e name := by
  have hsame : ∀ f, (h.set c other v).lastSet f name = h.lastSet f name :=
    fun f => if_neg fun hset => hname hset.2
  rw [get_eq, get_eq]
  simp only [hsame]
  rfl

/-- No scope stands in a chain twice. -/
theorem notMem_near (hchain : h.chain (h.frame e) = near ++ h.frame c :: far) :
    h.frame c ∉ near := by
  have hpairwise := (h.pairwise_chain (h.frame_lt e)).1
  rw [hchain, List.pairwise_append] at hpairwise
  intro hmem
  exact Nat.lt_irrefl _ (hpairwise.2.2 _ hmem _ List.mem_cons_self)

/-- A nearer scope that has the name hides what is set. -/
theorem get_set_of_shadowed (hchain : h.chain (h.frame e) = near ++ h.frame c :: far) {f : Nat}
    (hf : f ∈ near) (hset : (h.lastSet f name).isSome) :
    (h.set c name v).get e name = h.get e name := by
  have hnear : (near.findSome? fun g => (h.set c name v).lastSet g name) =
      near.findSome? fun g => h.lastSet g name :=
    h.findSome?_lastSet_set v (h.notMem_near hchain) name
  obtain ⟨w, hw⟩ : ∃ w, (near.findSome? fun f => h.lastSet f name) = some w :=
    Option.isSome_iff_exists.mp (List.findSome?_isSome_iff.mpr ⟨f, hf, hset⟩)
  rw [get_eq, get_eq]
  show (h.chain (h.frame e)).findSome? _ = _
  rw [hchain, List.findSome?_append, List.findSome?_append, hnear, hw]
  rfl

/-- What is set is found from then on, unless a nearer scope has the name. -/
theorem get_set_of_nearest (hchain : h.chain (h.frame e) = near ++ h.frame c :: far)
    (hnear : ∀ f ∈ near, h.lastSet f name = none) : (h.set c name v).get e name = some v := by
  have hset : (h.set c name v).lastSet (h.frame c) name = some v := if_pos ⟨rfl, rfl⟩
  rw [get_eq]
  show (h.chain (h.frame e)).findSome? _ = _
  rw [hchain, List.findSome?_append, h.findSome?_lastSet_set v (h.notMem_near hchain),
    List.findSome?_eq_none_iff.mpr hnear, List.findSome?_cons, hset]
  rfl

end Set

/-! ### Clones -/

/-- One handle was made as a clone of another, at whatever time. -/
inductive Clones : {n : Nat} → History n → Fin n → Fin n → Prop
  | made {n : Nat} (past : History n) (e : Fin n) :
      Clones (past.clone e) (Fin.last n) e.castSucc
  | scope {n : Nat} {past : History n} {c e : Fin n} (h : Clones past c e)
      (outer : Option (Fin n)) : Clones (past.scope outer) c.castSucc e.castSucc
  | clone {n : Nat} {past : History n} {c e : Fin n} (h : Clones past c e) (other : Fin n) :
      Clones (past.clone other) c.castSucc e.castSucc
  | set {n : Nat} {past : History n} {c e : Fin n} (h : Clones past c e) (other : Fin n)
      (name : String) (v : Value) : Clones (past.set other name v) c e

theorem Clones.frame_eq {h : History n} {c e : Fin n} (hclone : h.Clones c e) :
    h.frame c = h.frame e := by
  induction hclone with
  | made past e => simp [frame]
  | scope _ _ ih => simpa [frame] using ih
  | clone _ _ ih => simpa [frame] using ih
  | set _ _ _ _ ih => exact ih

/-- The same operations, each through some handle to the same scope. -/
inductive Interchanged : {n : Nat} → History n → History n → Prop
  | start : Interchanged .start .start
  | scope {n : Nat} {past other : History n} (h : Interchanged past other)
      {outer outer' : Option (Fin n)} (same : outer.map past.frame = outer'.map other.frame) :
      Interchanged (past.scope outer) (other.scope outer')
  | clone {n : Nat} {past other : History n} (h : Interchanged past other) {e e' : Fin n}
      (same : past.frame e = other.frame e') : Interchanged (past.clone e) (other.clone e')
  | set {n : Nat} {past other : History n} (h : Interchanged past other) {e e' : Fin n}
      (same : past.frame e = other.frame e') (name : String) (v : Value) :
      Interchanged (past.set e name v) (other.set e' name v)

/-- It makes no difference which of the handles to a scope is used. -/
theorem Interchanged.agree {h other : History n} (hsame : h.Interchanged other) :
    h.run.heap = other.run.heap ∧ h.frame = other.frame := by
  induction hsame with
  | start => exact ⟨rfl, rfl⟩
  | @scope n past other _ outer outer' same ih =>
    obtain ⟨hheap, hframe⟩ := ih
    have hframes : past.frames = other.frames := by rw [← size_run, ← size_run, hheap]
    constructor
    · show (past.run.heap.newScope _).2 = (other.run.heap.newScope _).2
      rw [hheap, map_handle_run, map_handle_run, same]
    · rw [frame, frame, hframe, hframes]
  | @clone n past other _ e e' same ih =>
    obtain ⟨hheap, hframe⟩ := ih
    refine ⟨hheap, ?_⟩
    rw [frame, frame, same, hframe]
  | @set n past other _ e e' same name v ih =>
    obtain ⟨hheap, hframe⟩ := ih
    refine ⟨?_, hframe⟩
    show past.run.heap.set _ name v = other.run.heap.set _ name v
    rw [hheap, handle_run, handle_run, same]

theorem Interchanged.run_eq {h other : History n} (hsame : h.Interchanged other) :
    other.run = h.run := by
  obtain ⟨hheap, hframe⟩ := hsame.agree
  refine Handles.ext hheap.symm (funext fun e => ?_)
  rw [handle_run, handle_run, hframe]

/--
Environments are linked frames, whatever was done with them and in whatever order. A name that is
looked up through a handle has the value that it was last set to in the nearest scope of the chain
that has it, also if that was after the handle was made, and none if no scope has it.

Following the links of the heap comes to an end, with this answer, because the scopes of a chain are
older and older. A clone cannot be told from what it was cloned from: the same is found through
both, and it makes no difference to any heap which of them an operation goes through. What is set in
a scope changes nothing for other names, for handles with chains that the scope is not in, or where
a nearer scope has the name. Elsewhere it is found from then on.
-/
theorem linked_frames (h : History n) (e : Fin n) (name : String) :
    h.get e name = ((h.chain (h.frame e)).findSome? fun f => h.lastSet f name) ∧
      (h.chain (h.frame e)).Pairwise (· > ·) ∧
      (∀ r, h.run.heap.Finds name (h.run.handle e) r ↔ r = h.get e name) ∧
      (∀ c, h.Clones c e → h.frame c = h.frame e ∧ h.get c name = h.get e name) ∧
      (∀ other, h.Interchanged other → other.run = h.run ∧
        ∀ c, other.frame c = h.frame e → other.get c name = h.get e name) ∧
      (∀ c v, (∀ x, h.frame c ∉ h.chain (h.frame e) → (h.set c x v).get e name = h.get e name) ∧
        (∀ x, x ≠ name → (h.set c x v).get e name = h.get e name) ∧
        ∀ near far, h.chain (h.frame e) = near ++ h.frame c :: far →
          ((∃ f ∈ near, (h.lastSet f name).isSome) →
            (h.set c name v).get e name = h.get e name) ∧
          ((∀ f ∈ near, h.lastSet f name = none) → (h.set c name v).get e name = some v)) := by
  have hclone : ∀ {c : Fin n}, h.frame c = h.frame e → h.get c name = h.get e name := by
    intro c hc
    rw [get_eq, get_eq, hc]
  refine ⟨h.get_eq e name, (h.pairwise_chain (h.frame_lt e)).1, fun r => ?_, fun c hc => ?_,
    fun other hother => ⟨hother.run_eq, fun c hc => ?_⟩, fun c v => ⟨fun x hx => ?_, fun x hx => ?_,
    fun near far hchain => ⟨?_, ?_⟩⟩⟩
  · have hfinds := h.finds_lookup_run (h.frame_lt e) name
    rw [← handle_run] at hfinds
    exact ⟨fun hr => hr.unique hfinds, fun hr => hr ▸ hfinds⟩
  · exact ⟨hc.frame_eq, hclone hc.frame_eq⟩
  · rw [← hother.agree.2] at hc
    rw [← hclone hc, get, get, hother.run_eq]
  · exact h.get_set_of_notMem v hx x
  · exact h.get_set_of_ne v hx
  · rintro ⟨f, hf, hset⟩
    exact h.get_set_of_shadowed v hchain hf hset
  · exact h.get_set_of_nearest v hchain

/-- Two handles to an inner scope: a late binding, a hidden one, and one out of reach. -/
theorem linked_frames_clone :
    let h : History 3 := ((History.start.scope none).scope (some 0)).clone 1
    h.Clones 2 1 ∧ (h.set 0 "x" (.integer 1)).get 2 "x" = some (.integer 1) ∧
      ((h.set 2 "x" (.integer 2)).set 0 "x" (.integer 1)).get 1 "x" = some (.integer 2) ∧
      (h.set 2 "x" (.integer 2)).get 0 "x" = none := by
  intro h
  have hsets := (linked_frames h 2 "x").2.2.2.2.2 0 (.integer 1)
  have hlate := (hsets.2.2 [1] [] rfl).2 (List.forall_mem_singleton.mpr rfl)
  obtain ⟨hget, -, -, -, -, hsets'⟩ := linked_frames (h.set 2 "x" (.integer 2)) 1 "x"
  have hhidden := ((hsets' 0 (.integer 1)).2.2 [1] [] rfl).1 ⟨1, List.mem_singleton_self 1, rfl⟩
  exact ⟨.made _ 1, hlate, hhidden.trans hget, (linked_frames (h.set 2 "x" (.integer 2)) 0 "x").1⟩

end History

end Ember
