import Ember.Proofs.Eval.Scopes

/-!
# What a scope binds

A scope is known by what it binds itself (`Heap.binding?`) and by the scope around it
(`Heap.outer?`): looking a name up takes no more than these (`Heap.lookup_eq`). Binding a name
changes one binding and no link, and a new scope has a link and binds nothing.
-/

namespace Ember.Heap

/-- What the scope itself binds a name to. -/
def binding? (h : Heap) (id : ScopeId) (name : String) : Option Value :=
  (h.scope? id).bind fun s => OrderedMap.get? s.bindings name

/-- The scope around a scope. -/
def outer? (h : Heap) (id : ScopeId) : Option ScopeId := (h.scope? id).bind Scope.outer

variable {h h' : Heap}

/-- A name is looked up in the scope itself, and then in the one around it if that is older. -/
theorem lookup_eq (h : Heap) (id : ScopeId) (name : String) :
    h.lookup id name = (h.binding? id name).or
      ((h.outer? id).bind fun o => if o.index < id.index then h.lookup o name else none) := by
  unfold lookup binding? outer?
  rw [chain]
  cases h.scope? id with
  | none => rfl
  | some s =>
    cases ho : s.outer with
    | none => cases hget : OrderedMap.get? s.bindings name <;> simp [ho, hget]
    | some o =>
      -- A link that does not go to an older scope is not followed.
      cases hget : OrderedMap.get? s.bindings name with
      | none => by_cases hlt : o.index < id.index <;> simp [ho, hget, hlt]
      | some v => by_cases hlt : o.index < id.index <;> simp [ho, hget, hlt]

theorem has_congr {id : ScopeId} (heq : h'.scope? id = h.scope? id) : h'.Has id ↔ h.Has id := by
  rw [has_iff, has_iff, heq]

theorem outer?_congr {id : ScopeId} (heq : h'.scope? id = h.scope? id) :
    h'.outer? id = h.outer? id := by
  rw [outer?, outer?, heq]

/-- What a scope binds is decided by the scope alone. -/
theorem binding?_congr {id : ScopeId} {name : String} (heq : h'.scope? id = h.scope? id) :
    h'.binding? id name = h.binding? id name := by
  rw [binding?, binding?, heq]

/-- Binding a name touches one scope, and that scope keeps its link. -/
theorem scope?_set (h : Heap) (id : ScopeId) (name : String) (v : Value) (i : ScopeId) :
    (h.set id name v).scope? i =
      if id = i then
        (h.scope? i).map fun s => { s with bindings := OrderedMap.insert name v s.bindings }
      else h.scope? i := by
  have hindex : id.index = i.index ↔ id = i :=
    ⟨fun heq => congrArg ScopeId.mk heq, fun heq => congrArg ScopeId.index heq⟩
  show (h.set id name v).scopes[i.index]? = _
  rw [getElem?_set]
  simp only [hindex]
  rfl

/-- The new scope comes behind all the others, which stay as they are. -/
theorem scope?_newScope (h : Heap) (outer : Option ScopeId) (i : ScopeId) :
    (h.newScope outer).2.scope? i =
      if i = ⟨h.scopes.size⟩ then some ⟨[], outer⟩ else h.scope? i := by
  have hindex : i.index = h.scopes.size ↔ i = ⟨h.scopes.size⟩ :=
    ⟨fun heq => congrArg ScopeId.mk heq, fun heq => congrArg ScopeId.index heq⟩
  show (h.newScope outer).2.scopes[i.index]? = _
  rw [getElem?_newScope]
  simp only [hindex]
  rfl

/-- Binding a name makes no scope. -/
theorem has_set_iff {id i : ScopeId} {name : String} {v : Value} :
    (h.set id name v).Has i ↔ h.Has i := by
  rw [Has, Has, size_set]

theorem has_newScope_iff {outer : Option ScopeId} {i : ScopeId} :
    (h.newScope outer).2.Has i ↔ h.Has i ∨ i = ⟨h.scopes.size⟩ := by
  rw [Has, Has, size_newScope, Nat.lt_succ_iff_lt_or_eq]
  exact or_congr_right ⟨congrArg ScopeId.mk, congrArg ScopeId.index⟩

/-- No link is ever changed once a scope is there. -/
theorem outer?_set (h : Heap) (id : ScopeId) (name : String) (v : Value) (i : ScopeId) :
    (h.set id name v).outer? i = h.outer? i := by
  unfold outer?
  rw [scope?_set]
  split
  · cases h.scope? i <;> rfl
  · rfl

theorem outer?_newScope (h : Heap) (outer : Option ScopeId) (i : ScopeId) :
    (h.newScope outer).2.outer? i = if i = ⟨h.scopes.size⟩ then outer else h.outer? i := by
  unfold outer?
  rw [scope?_newScope]
  split <;> rfl

/-- A name that is set in a scope that is not there is set nowhere. -/
theorem binding?_set (h : Heap) (id : ScopeId) (name : String) (v : Value) (i : ScopeId)
    (other : String) : (h.set id name v).binding? i other =
      if id = i ∧ name = other ∧ h.Has i then some v else h.binding? i other := by
  unfold binding?
  rw [scope?_set]
  cases hs : h.scope? i with
  | none =>
    have hnot : ¬h.Has i := fun hhas => by
      obtain ⟨s, hs'⟩ := has_iff.mp hhas
      rw [hs] at hs'
      cases hs'
    simp [hnot]
  | some s =>
    have hhas : h.Has i := has_iff.mpr ⟨s, hs⟩
    by_cases hid : id = i
    · by_cases hname : name = other
      · simp [hid, hname, hhas]
      · simp [hid, hname, OrderedMap.get?_insert_of_ne _ (Ne.symm hname)]
    · simp [hid]

/-- A new scope binds nothing. -/
theorem binding?_newScope (h : Heap) (outer : Option ScopeId) (i : ScopeId) (name : String) :
    (h.newScope outer).2.binding? i name = h.binding? i name := by
  unfold binding?
  rw [scope?_newScope]
  split
  · next hi =>
    have hnone : h.scope? ⟨h.scopes.size⟩ = none := Array.getElem?_size
    rw [hi, hnone]
    rfl
  · rfl

end Ember.Heap
