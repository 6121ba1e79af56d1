import Ember.Proofs.Eval.Pairing

/-!
# Machines without tokens

A function value keeps the literal it was made from, with its tokens, and a frame keeps the place of
the call. Otherwise nothing of a token gets into a machine. `Value.bare` and `Machine.bare` take
these out. A scope without tokens binds the same names to the same values without tokens, and the
stack has room for a frame when it has room for one that keeps its place.
-/

namespace Ember

/-! ## Maps -/

namespace OrderedMap

variable {κ α β : Type} [DecidableEq κ]

/-- The map with a function applied to what is bound. -/
def mapValues (f : α → β) (m : OrderedMap κ α) : OrderedMap κ β := m.map fun e => (e.1, f e.2)

/-- What is bound to a key is what was bound to it, under the function. -/
theorem get?_mapValues (f : α → β) (m : OrderedMap κ α) (key : κ) :
    get? (mapValues f m) key = (get? m key).map f := by
  induction m with
  | nil => rfl
  | cons e m ih =>
    show (if e.1 = key then some (f e.2) else get? (mapValues f m) key) = _
    rw [get?]
    split
    · rfl
    · exact ih

/-- The keys decide where a binding goes. -/
theorem insert_mapValues (f : α → β) (m : OrderedMap κ α) (key : κ) (a : α) :
    insert key (f a) (mapValues f m) = mapValues f (insert key a m) := by
  induction m with
  | nil => rfl
  | cons e m ih =>
    show (if e.1 = key then (key, f a) :: mapValues f m
      else (e.1, f e.2) :: insert key (f a) (mapValues f m)) = _
    rw [insert]
    split
    · rfl
    · rw [ih]
      rfl

omit [DecidableEq κ] in
theorem keys_mapValues (f : α → β) (m : OrderedMap κ α) : keys (mapValues f m) = keys m := by
  simp [keys, mapValues]

end OrderedMap

/-- The value with literals of functions that say nothing of their tokens. -/
abbrev Value.bare : Value → Value := mapTokens fun _ => .endOfInput

/-! ## Heaps -/

/-- The scope with values that say nothing of tokens. -/
def Scope.bare (s : Scope) : Scope :=
  { s with bindings := OrderedMap.mapValues Value.bare s.bindings }

namespace Heap

/-- The heap with values that say nothing of tokens. -/
def bare (h : Heap) : Heap := { h with scopes := h.scopes.map Scope.bare }

variable (h : Heap) (id : ScopeId)

theorem scope?_bare : h.bare.scope? id = (h.scope? id).map Scope.bare := Array.getElem?_map

/-- The links between scopes are no matter of tokens, so a chain goes as far. -/
theorem chain_bare : h.bare.chain id = (h.chain id).map Scope.bare := by
  induction id using chain.induct h with
  | case1 id hnone =>
    rw [chain, chain, scope?_bare, hnone]
    rfl
  | case2 id s hsome houter =>
    rw [chain, chain, scope?_bare, hsome]
    simp [Scope.bare, houter]
  | case3 id s hsome outer houter hlt ih =>
    rw [chain, chain, scope?_bare, hsome]
    simp [Scope.bare, houter, hlt, ih]
  | case4 id s hsome outer houter hlt =>
    rw [chain, chain, scope?_bare, hsome]
    simp [Scope.bare, houter, hlt]

/-- A name has the value that it has, without tokens. -/
theorem lookup_bare (name : String) :
    h.bare.lookup id name = (h.lookup id name).map Value.bare := by
  unfold lookup
  rw [chain_bare]
  induction h.chain id with
  | nil => rfl
  | cons s ss ih =>
    rw [List.map_cons, List.findSome?_cons, List.findSome?_cons]
    have hget : OrderedMap.get? s.bare.bindings name =
        (OrderedMap.get? s.bindings name).map Value.bare := OrderedMap.get?_mapValues ..
    rw [hget, ih]
    cases OrderedMap.get? s.bindings name <;> rfl

/-- The names that a scope binds are the same without tokens. -/
theorem names_bare : h.bare.names id = h.names id := by
  unfold names
  rw [scope?_bare]
  cases h.scope? id with
  | none => rfl
  | some s =>
    show (OrderedMap.keys (OrderedMap.mapValues Value.bare s.bindings)).mergeSort _ = _
    rw [OrderedMap.keys_mapValues]
    rfl

/-- Binding a value and taking the tokens out may be done in either order. -/
theorem set_bare (name : String) (v : Value) :
    h.bare.set id name v.bare = (h.set id name v).bare := by
  unfold set bare
  congr 1
  apply Array.ext_getElem?
  intro i
  rw [Array.getElem?_modify, Array.getElem?_map, Array.getElem?_map, Array.getElem?_modify]
  split
  · rw [Option.map_map, Option.map_map]
    congr 1
    funext s
    exact congrArg (Scope.mk · s.outer) (OrderedMap.insert_mapValues ..)
  · rfl

/-- A new scope has the same number, and there is nothing in it to take out. -/
theorem newScope_bare (outer : Option ScopeId) :
    h.bare.newScope outer = ((h.newScope outer).1, (h.newScope outer).2.bare) := by
  simp [newScope, bare, Array.map_push, Scope.bare, OrderedMap.mapValues]

end Heap

/-! ## The call stack -/

/-- The frame without the place of the call. -/
def CallFrame.bare (f : CallFrame) : CallFrame := { f with position := .origin }

namespace CallStack

/-- The stack without the places of the calls. -/
def bare (s : CallStack) : CallStack := { s with frames := s.frames.map CallFrame.bare }

theorem depth_bare (s : CallStack) : s.bare.depth = s.depth := Array.size_map

/-- There is room for a frame exactly when there is room for one without its place. -/
theorem push_bare (s : CallStack) (f : CallFrame) :
    s.bare.push f.bare = (s.push f).map bare := by
  obtain ⟨frames, limit⟩ := s
  have hframes : (frames.map CallFrame.bare).push f.bare = (frames.push f).map CallFrame.bare :=
    Array.map_push.symm
  have hpush : Except.ok (mk ((frames.map CallFrame.bare).push f.bare) limit) =
      (Except.ok (mk (frames.push f) limit) : Except Fault CallStack).map bare := by
    rw [hframes]
    rfl
  cases limit with
  | none => exact hpush
  | some n =>
    show (if n ≤ (mk frames (some n)).bare.depth then _ else _) =
      Except.map bare (if n ≤ (mk frames (some n)).depth then _ else _)
    rw [depth_bare]
    split
    · rfl
    · exact hpush

theorem pop_bare (s : CallStack) : s.bare.pop = s.pop.bare := by
  simp [pop, bare]

end CallStack

/-- The machine without tokens and their places. -/
def Machine.bare (m : Machine) : Machine := ⟨m.heap.bare, m.calls.bare, m.printer⟩

end Ember
