import Ember.Text.Quoted
import Ember.Value.Basic

/-!
# Scopes and the heap

A scope binds names to values and may be enclosed by another scope, in which names that it does not
bind are looked up. Scopes are shared: a function keeps the scope that it was made in, and a name
bound there later is seen by all who hold it. So scopes live in a heap and are held by their places.

## Termination

A scope is always enclosed by one that is older. `Heap.chain` follows no other links, so the scopes
that a lookup visits are finitely many.

The heap also gives out identities, each only once.
-/

namespace Ember

/-- Bindings and the scope around them. -/
structure Scope where
  bindings : OrderedMap String Value
  outer : Option ScopeId

/-- Every scope made so far, and the next identity to be given out. -/
structure Heap where
  scopes : Array Scope
  nextSerial : Nat

namespace Heap

/-- A heap without scopes. -/
def empty : Heap := ⟨#[], 0⟩

/-- The scope at a place. -/
def scope? (h : Heap) (id : ScopeId) : Option Scope := h.scopes[id.index]?

/-- A new scope that is enclosed by `outer`, or by none. -/
def newScope (h : Heap) (outer : Option ScopeId) : ScopeId × Heap :=
  (⟨h.scopes.size⟩, { h with scopes := h.scopes.push ⟨[], outer⟩ })

/-- Binds a name in a scope, whatever the scopes around it bind. -/
def set (h : Heap) (id : ScopeId) (name : String) (value : Value) : Heap :=
  { h with scopes := h.scopes.modify id.index fun s =>
      { s with bindings := OrderedMap.insert name value s.bindings } }

/-- A scope and the scopes around it, innermost first. -/
def chain (h : Heap) (id : ScopeId) : List Scope :=
  match h.scope? id with
  | none => []
  | some s =>
    match s.outer with
    | none => [s]
    | some outer => if outer.index < id.index then s :: h.chain outer else [s]
termination_by id.index

/-- The value of a name: that of the innermost scope which binds it. -/
def lookup (h : Heap) (id : ScopeId) (name : String) : Option Value :=
  (h.chain id).findSome? fun s => OrderedMap.get? s.bindings name

/-- The names that a scope itself binds, in the order of their characters. -/
def names (h : Heap) (id : ScopeId) : List String :=
  ((h.scope? id).map fun s => OrderedMap.keys s.bindings).getD []
    |>.mergeSort fun a b => decide (a ≤ b)

/-- A line that shows the names of a scope and whether there is a scope around it. -/
def describe (h : Heap) (id : ScopeId) : String :=
  let names := ", ".intercalate ((h.names id).map Text.quote)
  let enclosed := ((h.scope? id).bind Scope.outer).isSome
  "Environment \x7b names: [" ++ names ++ "], has_outer: " ++
    (if enclosed then "true" else "false") ++ " \x7d"

/-- An identity that was not given out before. -/
def freshIdentity (h : Heap) : Identity × Heap :=
  (⟨h.nextSerial⟩, { h with nextSerial := h.nextSerial + 1 })

end Heap

end Ember
