import Ember.Proofs.Eval.Discipline

/-!
# Scopes that are held

A value holds on to the scopes in which the functions inside it were made. A heap is `Closed` when
every scope that a bound value holds on to is there and the scope around a scope is always older.
Binding a name and making a scope keep it closed, so all heaps that evaluation leads to are.

In a closed heap a lookup is what it should be (`Heap.Closed.lookup_eq`): the links are followed to
the end, because all of them go to older scopes.
-/

namespace Ember

/-! ## Values -/

mutual

/-- The scopes of the functions in a value, at any depth. -/
def Value.scopes : Value → List ScopeId
  | .array _ elements => scopesOf elements
  | .hash _ entries => scopesOfEntries entries
  | .function _ _ scope => [scope]
  | .returnSignal v => v.scopes
  | .integer _ | .boolean _ | .string _ | .builtin _ | .null | .error _ => []

def scopesOf : List Value → List ScopeId
  | [] => []
  | v :: vs => v.scopes ++ scopesOf vs

def scopesOfEntries : List (HashKey × Value × Value) → List ScopeId
  | [] => []
  | (_, k, v) :: entries => k.scopes ++ v.scopes ++ scopesOfEntries entries

end

section Values

variable {s : ScopeId} {v : Value}

theorem mem_scopesOf {vs : List Value} : s ∈ scopesOf vs ↔ ∃ v ∈ vs, s ∈ v.scopes := by
  induction vs with
  | nil => simp [scopesOf]
  | cons v vs ih => simp [scopesOf, ih]

/-- Scopes are held by the keys of a hash, as values, and by what stands under them. -/
theorem mem_scopesOfEntries {entries : HashEntries} :
    s ∈ scopesOfEntries entries ↔
      ∃ key k v, (key, k, v) ∈ entries ∧ (s ∈ k.scopes ∨ s ∈ v.scopes) := by
  induction entries with
  | nil => simp [scopesOfEntries]
  | cons e entries ih =>
    obtain ⟨key, k, v⟩ := e
    rw [scopesOfEntries, List.mem_append, List.mem_append, ih]
    constructor
    · rintro (h | ⟨key', k', v', hmem, h⟩)
      · exact ⟨key, k, v, List.mem_cons_self, h⟩
      · exact ⟨key', k', v', List.mem_cons_of_mem _ hmem, h⟩
    · rintro ⟨key', k', v', hmem, h⟩
      rcases List.mem_cons.mp hmem with heq | hmem
      · cases heq
        exact .inl h
      · exact .inr ⟨key', k', v', hmem, h⟩

theorem scopesOf_append (vs ws : List Value) :
    scopesOf (vs ++ ws) = scopesOf vs ++ scopesOf ws := by
  induction vs with
  | nil => rfl
  | cons v vs ih => simp [scopesOf, ih]

/-- It is functions that hold scopes, and a plain value has none in it. -/
theorem scopes_of_isPlain (h : v.isPlain = true) : v.scopes = [] := by
  cases v with
  | array _ _ | hash _ _ | function _ _ _ | returnSignal _ | error _ => cases h
  | _ => rfl

theorem scopes_subset_of_mem {vs : List Value} (h : v ∈ vs) : v.scopes ⊆ scopesOf vs :=
  fun _ hs => mem_scopesOf.mpr ⟨v, h, hs⟩

/-- Where nothing is found no scope is held. -/
theorem scopes_getD_subset {o : Option Value} {l : List ScopeId}
    (h : ∀ v, o = some v → v.scopes ⊆ l) : (o.getD .null).scopes ⊆ l := by
  cases o with
  | none => exact List.nil_subset l
  | some v => exact h v rfl

/-- An entry is replaced or added, and no scope is held but by it and by those that were there. -/
theorem scopesOfEntries_insert_subset (key : HashKey) (k v : Value) (entries : HashEntries) :
    scopesOfEntries (OrderedMap.insert key (k, v) entries) ⊆
      k.scopes ++ v.scopes ++ scopesOfEntries entries := by
  intro s hs
  obtain ⟨key', k', v', hmem, hs⟩ := mem_scopesOfEntries.mp hs
  rcases OrderedMap.eq_or_mem_of_mem_insert hmem with heq | hmem
  · cases heq
    exact List.mem_append_left _ (List.mem_append.mpr hs)
  · exact List.mem_append_right _ (mem_scopesOfEntries.mpr ⟨key', k', v', hmem, hs⟩)

/-- An element access holds on to no scope that the value does not. -/
theorem scopes_evalIndex_subset {left index : Value} (h : evalIndex left index = .ok v) :
    v.scopes ⊆ left.scopes := by
  unfold evalIndex at h
  split at h
  · cases h
    split
    · exact List.nil_subset _
    · exact scopes_getD_subset fun w hw => scopes_subset_of_mem (List.mem_of_getElem? hw)
  · split at h
    · cases h
      refine scopes_getD_subset fun w hw s hs => ?_
      obtain ⟨⟨k, w⟩, hget, rfl⟩ := Option.map_eq_some_iff.mp hw
      exact mem_scopesOfEntries.mpr ⟨_, k, w, OrderedMap.mem_of_get? hget, .inr hs⟩
    · cases h
  · cases h

end Values

/-! ## Heaps -/

namespace Heap

/-- The scope is one that the heap made. -/
def Has (h : Heap) (s : ScopeId) : Prop := s.index < h.scopes.size

instance (h : Heap) (s : ScopeId) : Decidable (h.Has s) :=
  inferInstanceAs (Decidable (s.index < h.scopes.size))

/-- The scopes are ones that the heap made. -/
def HasAll (h : Heap) (ss : List ScopeId) : Prop := ∀ s ∈ ss, h.Has s

/-- No scope is held that is not there, and the scope around a scope is older. -/
structure Closed (h : Heap) : Prop where
  outer : ∀ {i : Nat} {s : Scope} {o : ScopeId},
    h.scopes[i]? = some s → s.outer = some o → o.index < i
  bound : ∀ {i : Nat} {s : Scope}, h.scopes[i]? = some s → ∀ e ∈ s.bindings, h.HasAll e.2.scopes

variable {h h' : Heap} {id : ScopeId} {name : String} {v : Value}

theorem has_iff : h.Has id ↔ ∃ s, h.scope? id = some s := by
  simp [Has, scope?, ← Option.isSome_iff_exists]

theorem hasAll_nil (h : Heap) : h.HasAll [] := nofun

theorem hasAll_cons {s : ScopeId} {ss : List ScopeId} :
    h.HasAll (s :: ss) ↔ h.Has s ∧ h.HasAll ss := List.forall_mem_cons

theorem hasAll_append {ss ts : List ScopeId} :
    h.HasAll (ss ++ ts) ↔ h.HasAll ss ∧ h.HasAll ts := List.forall_mem_append

/-- A heap only grows, so a scope that is there stays there. -/
theorem HasAll.mono {ss : List ScopeId} (hss : h.HasAll ss)
    (hle : h.scopes.size ≤ h'.scopes.size) : h'.HasAll ss :=
  fun s hs => Nat.lt_of_lt_of_le (hss s hs) hle

theorem HasAll.subset {ss ts : List ScopeId} (hts : h.HasAll ts) (hss : ss ⊆ ts) : h.HasAll ss :=
  fun s hs => hts s (hss hs)

/-! ### What the operations of the heap do to its scopes -/

@[simp] theorem size_set (h : Heap) (id : ScopeId) (name : String) (v : Value) :
    (h.set id name v).scopes.size = h.scopes.size := Array.size_modify

@[simp] theorem size_newScope (h : Heap) (outer : Option ScopeId) :
    (h.newScope outer).2.scopes.size = h.scopes.size + 1 := Array.size_push _

/-- Binding a name touches one place of the array of scopes. -/
theorem getElem?_set (h : Heap) (id : ScopeId) (name : String) (v : Value) (i : Nat) :
    (h.set id name v).scopes[i]? =
      if id.index = i then
        h.scopes[i]?.map fun s => { s with bindings := OrderedMap.insert name v s.bindings }
      else h.scopes[i]? := Array.getElem?_modify

theorem getElem?_newScope (h : Heap) (outer : Option ScopeId) (i : Nat) :
    (h.newScope outer).2.scopes[i]? =
      if i = h.scopes.size then some ⟨[], outer⟩ else h.scopes[i]? := Array.getElem?_push

/-! ### Closed heaps -/

theorem closed_empty : empty.Closed where
  outer hs _ := by simp [empty] at hs
  bound hs := by simp [empty] at hs

/-- The value that is bound may hold no scope that is not there. -/
theorem Closed.set (hh : h.Closed) (id : ScopeId) (name : String) (hv : h.HasAll v.scopes) :
    (h.set id name v).Closed where
  outer {i s o} hs ho := by
    rw [getElem?_set] at hs
    split at hs
    · obtain ⟨t, ht, rfl⟩ := Option.map_eq_some_iff.mp hs
      exact hh.outer ht ho
    · exact hh.outer hs ho
  bound {i s} hs e he := by
    have hle := Nat.le_of_eq (size_set h id name v).symm
    rw [getElem?_set] at hs
    split at hs
    · obtain ⟨t, ht, rfl⟩ := Option.map_eq_some_iff.mp hs
      rcases OrderedMap.eq_or_mem_of_mem_insert he with rfl | he
      · exact hv.mono hle
      · exact (hh.bound ht e he).mono hle
    · exact (hh.bound hs e he).mono hle

/-- A new scope is made inside one that is there. -/
theorem Closed.newScope (hh : h.Closed) {outer : Option ScopeId} (ho : ∀ o ∈ outer, h.Has o) :
    (h.newScope outer).2.Closed where
  outer {i s o} hs hso := by
    rw [getElem?_newScope] at hs
    split at hs
    · next hi =>
      cases hs
      subst hi
      exact ho o hso
    · exact hh.outer hs hso
  bound {i s} hs e he := by
    have hle : h.scopes.size ≤ (h.newScope outer).2.scopes.size := by simp
    rw [getElem?_newScope] at hs
    split at hs
    · cases hs
      cases he
    · exact (hh.bound hs e he).mono hle

/-- Only the scopes of a heap matter. -/
theorem Closed.of_scopes_eq (hh : h.Closed) (heq : h'.scopes = h.scopes) : h'.Closed where
  outer hs := hh.outer (heq ▸ hs)
  bound hs e he := (hh.bound (heq ▸ hs) e he).mono (Nat.le_of_eq (congrArg Array.size heq).symm)

/-- What is bound in a scope holds on to scopes that are there. -/
theorem Closed.hasAll_of_get? (hh : h.Closed) {s : Scope} (hs : h.scope? id = some s)
    (hv : OrderedMap.get? s.bindings name = some v) : h.HasAll v.scopes :=
  hh.bound hs _ (OrderedMap.mem_of_get? hv)

/-- In a closed heap a name is looked up in the scope itself and then in the scope around it. -/
theorem Closed.lookup_eq (hh : h.Closed) (id : ScopeId) (name : String) :
    h.lookup id name = (h.scope? id).bind fun s =>
      (OrderedMap.get? s.bindings name).or (s.outer.bind fun outer => h.lookup outer name) := by
  unfold lookup
  rw [chain]
  cases hs : h.scope? id with
  | none => rfl
  | some s =>
    cases ho : s.outer with
    | none => cases hget : OrderedMap.get? s.bindings name <;> simp [ho, hget]
    | some o =>
      -- The link goes to an older scope, so the chain goes on there.
      have hlt : o.index < id.index := hh.outer hs ho
      cases hget : OrderedMap.get? s.bindings name <;> simp [ho, hget, hlt]

end Heap

end Ember
