import Ember.Proofs.Eval.Change

/-!
# No scope is made up

The scopes that a moment holds are the scope of the body under way and those of its callers, and the
scopes held by the values that are at hand. Going on to the next part of a tree makes no new ones,
and an action makes one only by making the scope itself. So a `Closed` moment, in which all of them
are scopes of a closed heap, is followed by closed moments only (`Moment.Closed.next`).

The heaps that evaluation leads to are therefore closed (`Heap.Reached.closed`), whatever is
evaluated in them.
-/

namespace Ember

/-! ## Held scopes -/

/-- The scopes that are held where values are collected. -/
def Purpose.scopes : Purpose → List ScopeId
  | .array => []
  | .call callee _ => callee.scopes

def Task.scopes : Task → List ScopeId
  | .collect purpose done _ => purpose.scopes ++ scopesOf done
  | .pairs _ entries => scopesOfEntries entries
  | .stmts _ last => last.scopes
  | .expr _ | .stmt _ => []

def Action.scopes : Action → List ScopeId
  | .array elements => scopesOf elements
  | .hash entries => scopesOfEntries entries
  | .function _ => []
  | .assign _ v => v.scopes
  | .run _ args => scopesOf args
  | .lookup _ scope => [scope]
  | .call _ scope _ args | .bind scope _ args _ _ => scope :: scopesOf args

/-- The scopes that an answer holds. -/
def answerScopes : Except Unwind Value → List ScopeId
  | .ok v | .error (.returning v) => v.scopes
  | .error _ => []

/-- The scopes that are held by what is done next. -/
def Focus.scopes : Focus → List ScopeId
  | .task t => t.scopes
  | .act p => p.scopes
  | .enter scope _ _ => [scope]
  | .ended r => answerScopes r

/-- The scopes that are held by what waits for a value. -/
def Pending.scopes : Pending → List ScopeId
  | .collect purpose done _ => purpose.scopes ++ scopesOf done
  | .key _ _ entries => scopesOfEntries entries
  | .entry _ k _ entries => k.scopes ++ scopesOfEntries entries
  | .right a _ | .index a => a.scopes
  | .unary _ | .left _ _ | .condition _ _ | .callee _ _ | .indexed _ | .binding _ | .returning
  | .stmts _ | .program => []

/-- Everything that is held by a focus and by what waits for it is in a list. -/
def Holds (l : List ScopeId) (x : Focus × List Pending) : Prop :=
  x.1.scopes ⊆ l ∧ ∀ p ∈ x.2, p.scopes ⊆ l

section Holds

variable {l : List ScopeId} {f : Focus} {p : Pending}

theorem holds_nil_iff : Holds l (f, []) ↔ f.scopes ⊆ l := by simp [Holds]

theorem holds_singleton_iff : Holds l (f, [p]) ↔ f.scopes ⊆ l ∧ p.scopes ⊆ l := by simp [Holds]

end Holds

/-! ## Going through the tree -/

theorem answerScopes_atBoundary (r : Except Unwind Value) :
    answerScopes (atBoundary r) = answerScopes r := by
  cases r with
  | ok v => rfl
  | error u => cases u <;> rfl

theorem Purpose.scopes_finish_subset (purpose : Purpose) (vs : List Value) :
    (purpose.finish vs).scopes ⊆ purpose.scopes ++ scopesOf vs := by
  cases purpose with
  | array => exact List.Subset.refl _
  | call callee frame =>
    cases callee with
    | function id f scope => exact List.Subset.refl _
    | builtin b => exact List.Subset.refl _
    | _ => exact List.nil_subset _

theorem Focus.scopes_ofExcept {r : Except RuntimeError Value} {l : List ScopeId}
    (h : ∀ v, r = .ok v → v.scopes ⊆ l) : (Focus.ofExcept r).scopes ⊆ l := by
  cases r with
  | ok v => exact h v rfl
  | error e => exact List.nil_subset l

theorem Focus.scopes_branch (v : Value) (consequence : Block) (alternative : Option Block) :
    (Focus.branch v consequence alternative).scopes = [] := by
  unfold branch
  split
  · rfl
  · cases alternative <;> rfl

theorem Expr.holds_first (env : ScopeId) (e : Expr) : Holds [env] (e.first env) := by
  cases e with
  | identifier name =>
    rw [first]
    split
    · exact holds_nil_iff.mpr (List.nil_subset _)
    · exact holds_nil_iff.mpr (List.Subset.refl _)
  | integer _ _ | boolean _ _ | string _ _ | array _ _ | hash _ _ | function _ | missing _ =>
    exact holds_nil_iff.mpr (List.nil_subset _)
  | unary _ _ _ | binary _ _ _ _ | conditional _ _ _ _ | call _ _ _ | index _ _ _ =>
    exact holds_singleton_iff.mpr ⟨List.nil_subset _, List.nil_subset _⟩

theorem Stmt.holds_first (l : List ScopeId) (s : Stmt) : Holds l s.first := by
  cases s with
  | letBinding _ name _ =>
    rw [first]
    split
    · exact holds_nil_iff.mpr (List.nil_subset _)
    · exact holds_singleton_iff.mpr ⟨List.nil_subset _, List.nil_subset _⟩
  | returning _ _ => exact holds_singleton_iff.mpr ⟨List.nil_subset _, List.nil_subset _⟩
  | expression _ _ | block _ | missing _ => exact holds_nil_iff.mpr (List.nil_subset _)

/-- Beginning with a part of a tree makes no scope up. -/
theorem Task.holds_first (env : ScopeId) (t : Task) : Holds (env :: t.scopes) (t.first env) := by
  have hsub : t.scopes ⊆ env :: t.scopes := List.subset_cons_self _ _
  cases t with
  | expr e => exact e.holds_first env
  | stmt s => exact s.holds_first _
  | collect purpose done todo =>
    cases todo with
    | nil => exact holds_nil_iff.mpr (List.Subset.trans (purpose.scopes_finish_subset done) hsub)
    | cons e es => exact holds_singleton_iff.mpr ⟨List.nil_subset _, hsub⟩
  | pairs todo entries =>
    cases todo with
    | nil => exact holds_nil_iff.mpr hsub
    | cons p ps => exact holds_singleton_iff.mpr ⟨List.nil_subset _, hsub⟩
  | stmts todo last =>
    cases todo with
    | nil => exact holds_nil_iff.mpr hsub
    | cons s ss => exact holds_singleton_iff.mpr ⟨List.nil_subset _, List.nil_subset _⟩

/-- Going on with a value makes no scope up. -/
theorem Pending.holds_resume (p : Pending) (v : Value) :
    Holds (p.scopes ++ v.scopes) (p.resume v) := by
  have hp : p.scopes ⊆ p.scopes ++ v.scopes := List.subset_append_left _ _
  have hv : v.scopes ⊆ p.scopes ++ v.scopes := List.subset_append_right _ _
  cases p with
  | collect purpose done todo =>
    refine holds_nil_iff.mpr ?_
    show purpose.scopes ++ scopesOf (done ++ [v]) ⊆ _
    rw [scopesOf_append, ← List.append_assoc]
    exact List.append_subset.mpr ⟨hp, by simp [scopesOf]⟩
  | key value todo entries =>
    rw [resume]
    split
    · exact holds_nil_iff.mpr (List.nil_subset _)
    · exact holds_singleton_iff.mpr ⟨List.nil_subset _, List.append_subset.mpr ⟨hv, hp⟩⟩
  | entry hashKey k todo entries =>
    have hsub := List.append_subset.mp hp
    have hinsert := scopesOfEntries_insert_subset hashKey k v entries
    refine holds_nil_iff.mpr (List.Subset.trans hinsert ?_)
    exact List.append_subset.mpr ⟨List.append_subset.mpr ⟨hsub.1, hv⟩, hsub.2⟩
  -- Operators answer with plain values, which hold no scope.
  | unary op =>
    refine holds_nil_iff.mpr (Focus.scopes_ofExcept fun w hw => ?_)
    rw [scopes_of_isPlain (isPlain_of_evalUnary hw)]
    exact List.nil_subset _
  | right a op =>
    refine holds_nil_iff.mpr (Focus.scopes_ofExcept fun w hw => ?_)
    rw [scopes_of_isPlain (isPlain_of_evalBinary hw)]
    exact List.nil_subset _
  | index a =>
    refine holds_nil_iff.mpr (Focus.scopes_ofExcept fun w hw => ?_)
    exact List.Subset.trans (scopes_evalIndex_subset hw) hp
  | condition consequence alternative =>
    refine holds_nil_iff.mpr ?_
    rw [Focus.scopes_branch]
    exact List.nil_subset _
  | left op e | indexed i =>
    exact holds_singleton_iff.mpr ⟨List.nil_subset _, hv⟩
  | callee frame arguments =>
    exact holds_nil_iff.mpr (List.append_subset.mpr ⟨hv, List.nil_subset _⟩)
  | binding name | returning | stmts todo | program => exact holds_nil_iff.mpr hv

theorem Pending.scopes_unwind (p : Pending) (u : Unwind) :
    (p.unwind u).scopes = answerScopes (.error u) := by
  cases p with
  | program => exact answerScopes_atBoundary (.error u)
  | _ => rfl

/-! ## Closed moments -/

/-- What a body that waits holds is in the heap. -/
structure Activation.Closed (h : Heap) (c : Activation) : Prop where
  env : h.Has c.env
  pending : ∀ p ∈ c.pending, h.HasAll p.scopes

namespace Moment

/-- The heap is closed, and all scopes that are held are in it. -/
structure Closed (a : Moment) : Prop where
  heap : a.machine.heap.Closed
  env : a.machine.heap.Has a.env
  focus : a.machine.heap.HasAll a.focus.scopes
  pending : ∀ p ∈ a.pending, a.machine.heap.HasAll p.scopes
  callers : ∀ c ∈ a.callers, c.Closed a.machine.heap

variable {a : Moment}

/-- Scopes stay in the heap while it grows. -/
theorem Closed.of_heap (ha : a.Closed) {f : Focus} {m : Machine} (hm : m.heap.Closed)
    (hle : a.machine.heap.scopes.size ≤ m.heap.scopes.size) (hf : m.heap.HasAll f.scopes) :
    Closed { a with focus := f, machine := m } where
  heap := hm
  env := Nat.lt_of_lt_of_le ha.env hle
  focus := hf
  pending p hp := (ha.pending p hp).mono hle
  callers c hc :=
    ⟨Nat.lt_of_lt_of_le (ha.callers c hc).env hle,
      fun p hp => ((ha.callers c hc).pending p hp).mono hle⟩

/-- Going on in the tree keeps a moment closed. -/
theorem Closed.of_holds (ha : a.Closed) {x : Focus × List Pending} {l : List ScopeId}
    (hx : Holds l x) (hl : a.machine.heap.HasAll l) {ps : List Pending}
    (hps : ∀ p ∈ ps, a.machine.heap.HasAll p.scopes) :
    Closed { a with focus := x.1, pending := x.2 ++ ps } where
  heap := ha.heap
  env := ha.env
  focus := hl.subset hx.1
  pending p hp := (List.mem_append.mp hp).elim (fun h => hl.subset (hx.2 p h)) (hps p)
  callers := ha.callers

/-- An action keeps a moment closed. -/
theorem Closed.perform (ha : a.Closed) {p : Action} (hp : a.machine.heap.HasAll p.scopes) :
    (a.perform p).Closed := by
  obtain ⟨f, c, hdoes, heq⟩ := exists_perform_eq p a.env a.machine.heap
  rw [heq a rfl rfl]
  have hle := c.size_le a.machine.heap
  cases hdoes with
  | array _ | hash _ => exact ha.of_heap (ha.heap.of_scopes_eq rfl) hle hp
  | function f =>
    exact ha.of_heap (ha.heap.of_scopes_eq rfl) hle (Heap.hasAll_cons.mpr ⟨ha.env, nofun⟩)
  | assign name v => exact ha.of_heap (ha.heap.set a.env name hp) hle (Heap.hasAll_nil _)
  | run hc hv =>
    have hheap : (c.onHeap a.machine.heap).Closed := ha.heap.of_scopes_eq (hc a.machine.heap)
    exact ha.of_heap hheap hle ((hp.subset hv).mono hle)
  | found hs hv => exact ha.of_heap ha.heap hle (ha.heap.hasAll_of_get? hs hv)
  | outwards hs hv ho =>
    have hid := (Heap.hasAll_cons.mp hp).1
    have houter := Nat.lt_trans (ha.heap.outer hs ho) hid
    exact ha.of_heap ha.heap hle (Heap.hasAll_cons.mpr ⟨houter, nofun⟩)
  | runError _ | builtin _ | unbound _ | arity _ | unnamed =>
    exact ha.of_heap ha.heap hle (Heap.hasAll_nil _)
  | call f scope frame args =>
    obtain ⟨hscope, hargs⟩ := Heap.hasAll_cons.mp hp
    have houter : ∀ o ∈ some scope, a.machine.heap.Has o := by
      rintro _ ⟨⟩
      exact hscope
    -- The new scope has the place behind those that were there.
    have hnew : a.machine.heap.scopes.size < (a.machine.heap.newScope (some scope)).2.scopes.size :=
      Nat.lt_of_lt_of_eq (Nat.lt_succ_self _) (Heap.size_newScope ..).symm
    exact ha.of_heap (ha.heap.newScope houter) hle (Heap.hasAll_cons.mpr ⟨hnew, hargs.mono hle⟩)
  | bind =>
    obtain ⟨hscope, hargs⟩ := Heap.hasAll_cons.mp hp
    obtain ⟨hv, hvs⟩ := Heap.hasAll_append.mp hargs
    exact ha.of_heap (ha.heap.set _ _ hv) hle
      (Heap.hasAll_cons.mpr ⟨Nat.lt_of_lt_of_le hscope hle, hvs.mono hle⟩)
  | bound =>
    obtain ⟨hscope, -⟩ := Heap.hasAll_cons.mp hp
    exact ha.of_heap ha.heap hle (Heap.hasAll_cons.mpr ⟨hscope, nofun⟩)

/-- Beginning the body of a call, or being refused it, keeps a moment closed. -/
theorem Closed.enter (ha : a.Closed) {scope : ScopeId} (hscope : a.machine.heap.Has scope)
    (frame : CallFrame) (body : Block) : (a.enter scope frame body).Closed := by
  unfold Moment.enter
  split
  · exact ⟨ha.heap, ha.env, Heap.hasAll_nil _, ha.pending, ha.callers⟩
  · exact ⟨ha.heap, hscope, Heap.hasAll_nil _, nofun,
      List.forall_mem_cons.mpr ⟨⟨ha.env, ha.pending⟩, ha.callers⟩⟩

/-- Going on with an answer keeps a moment closed. -/
theorem Closed.resume (ha : a.Closed) {r : Except Unwind Value}
    (hr : a.machine.heap.HasAll (answerScopes r)) {p : Pending} {ps : List Pending}
    (hpending : a.pending = p :: ps) : (a.resume r p ps).Closed := by
  have hall := ha.pending
  rw [hpending, List.forall_mem_cons] at hall
  obtain ⟨hp, hps⟩ := hall
  cases r with
  | ok v => exact ha.of_holds (p.holds_resume v) (Heap.hasAll_append.mpr ⟨hp, hr⟩) hps
  | error u =>
    refine ⟨ha.heap, ha.env, ?_, hps, ha.callers⟩
    show a.machine.heap.HasAll (p.unwind u).scopes
    rwa [p.scopes_unwind u]

/-- Going back to the caller keeps a moment closed. -/
theorem Closed.leave (ha : a.Closed) {r : Except Unwind Value}
    (hr : a.machine.heap.HasAll (answerScopes r)) : (a.leave r).Closed := by
  have hcallers := ha.callers
  unfold Moment.leave
  split
  · exact ha
  · next c cs heq =>
    rw [heq, List.forall_mem_cons] at hcallers
    obtain ⟨hc, hcs⟩ := hcallers
    refine ⟨ha.heap, hc.env, ?_, hc.pending, hcs⟩
    show a.machine.heap.HasAll (answerScopes (atBoundary r))
    rwa [answerScopes_atBoundary]

/-- Each step keeps a moment closed. -/
theorem Closed.next (ha : a.Closed) : a.next.Closed := by
  have hfocus := ha.focus
  unfold Moment.next
  split
  · next t ht =>
    rw [ht] at hfocus
    exact ha.of_holds (t.holds_first a.env) (Heap.hasAll_cons.mpr ⟨ha.env, hfocus⟩) ha.pending
  · next p hp =>
    rw [hp] at hfocus
    exact ha.perform hfocus
  · next scope frame body hf =>
    rw [hf] at hfocus
    exact ha.enter (Heap.hasAll_cons.mp hfocus).1 frame body
  · next r hr =>
    rw [hr] at hfocus
    split
    · next p ps hpending => exact ha.resume hfocus hpending
    · exact ha.leave hfocus

/-- Every moment after a closed one is closed. -/
theorem Closed.iterate (ha : a.Closed) (k : Nat) : (Moment.next^[k] a).Closed :=
  iterate_next (P := Closed) (fun _ hb => hb.next) ha k

theorem closed_start {m : Machine} (hm : m.heap.Closed) {env : ScopeId} (henv : m.heap.Has env)
    (node : Node) : (start m env node).Closed := by
  cases node with
  | program p =>
    exact ⟨hm, henv, Heap.hasAll_nil _, List.forall_mem_singleton.mpr (Heap.hasAll_nil _), nofun⟩
  | statement s => exact ⟨hm, henv, Heap.hasAll_nil _, nofun, nofun⟩
  | expression e => exact ⟨hm, henv, Heap.hasAll_nil _, nofun, nofun⟩
  | missing => exact ⟨hm, henv, Heap.hasAll_nil _, nofun, nofun⟩

end Moment

/-! ## Reached heaps -/

/--
The heaps that evaluations lead to, in whatever scopes and of whatever nodes, each by an interpreter
of its own. Between them, whoever holds the scopes may make new ones and bind names to values that
hold on to no other scopes.
-/
inductive Heap.Reached : Heap → Prop
  | empty : Reached .empty
  | newScope {h : Heap} {outer : Option ScopeId} (ho : ∀ o ∈ outer, h.Has o) :
      Reached h → Reached (h.newScope outer).2
  | identity {h : Heap} : Reached h → Reached h.freshIdentity.2
  | set {h : Heap} (id : ScopeId) (name : String) {v : Value} (hv : h.HasAll v.scopes) :
      Reached h → Reached (h.set id name v)
  | eval {m n : Machine} {env : ScopeId} {node : Node} {o : Outcome} (henv : m.heap.Has env)
      (h : m.Finishes env node o n) : Reached m.heap → Reached n.heap

/-- No heap that is reached holds a scope that is not there. -/
theorem Heap.Reached.closed {h : Heap} (hh : h.Reached) : h.Closed := by
  induction hh with
  | empty => exact closed_empty
  | newScope ho _ ih => exact ih.newScope ho
  | identity _ ih => exact ih.of_scopes_eq rfl
  | set id name hv _ ih => exact ih.set id name hv
  | @eval _ _ _ node _ henv h _ ih =>
    obtain ⟨k, hk⟩ := h
    rw [Moment.machine_of_outcome? hk]
    exact ((Moment.closed_start ih henv node).iterate k).heap

/-! ### Functions that call each other -/

/-- A call of a name. -/
def Expr.callOf (name : String) (arguments : List Expr) : Expr :=
  .call (.synthetic .lParen "(") (.identifier (.ofToken (.synthetic .ident name))) arguments

/-- A function without parameters that prints a name and calls it. -/
def FunctionLiteral.calling (name : String) : FunctionLiteral :=
  let brace := Token.synthetic .lBrace "\x7b"
  let print := Expr.callOf "puts" [.string (.synthetic .string name) name]
  ⟨.synthetic .kwFn "fn", [], ⟨brace, [.ofExpr print, .ofExpr (.callOf name [])]⟩⟩

/-- A heap with one scope. It binds two functions made in it that call each other, without end. -/
def Heap.endless : Heap :=
  (empty.newScope none).2.set ⟨0⟩ "f" (.function ⟨0⟩ (.calling "g") ⟨0⟩)
    |>.set ⟨0⟩ "g" (.function ⟨1⟩ (.calling "f") ⟨0⟩)

/-- A machine with that heap, on which a call is under way. -/
def Machine.endless (limit : Option Nat) : Machine :=
  ⟨.endless, ⟨#[⟨"main", .origin⟩], limit⟩, .fresh⟩

/-- Calls one of the two functions. -/
def Node.endless : Node := .expression (.callOf "f" [])

/-- The frame that is there and two calls are as many as the limit allows. -/
theorem Machine.eval_endless :
    ((endless (some 3)).eval ⟨0⟩ .endless).1 = .fault (.callDepth 3) := by
  with_unfolding_all rfl

theorem Heap.has_endless : endless.Has ⟨0⟩ := by decide

theorem Heap.reached_endless : endless.Reached := by
  have hscope : Reached (empty.newScope none).2 := .newScope nofun .empty
  refine .set _ _ (hasAll_cons.mpr ⟨?_, nofun⟩) (.set _ _ (hasAll_cons.mpr ⟨?_, nofun⟩) hscope)
  · decide
  · decide

end Ember
