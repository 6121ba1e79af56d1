import Ember.Proofs.Eval.Discipline

/-!
# Values and the heap during evaluation

The discipline `Discipline.data` of a shape: functions are made from literals of the shape only, no
signal is ever kept as a value, and a hash keeps each entry under the key that its key value makes.
That holds of all values in the heap and of all answers. The limit on nested calls stays what it is,
and the only faults are placeholders that the shape allows and calls beyond that limit
(`lawfulCalls_data`).
-/

namespace Ember

/-! ## Values -/

mutual

/-- No signal is in the value, and no function but those from literals of the shape. -/
def Value.Sound (k : Shape) : Value → Prop
  | .array _ elements => SoundElements k elements
  | .hash _ entries => SoundEntries k entries
  | .function _ literal _ => literal.HasShape k
  | .returnSignal _ | .error _ => False
  | .integer _ | .boolean _ | .string _ | .builtin _ | .null => True

def SoundElements (k : Shape) : List Value → Prop
  | [] => True
  | v :: vs => v.Sound k ∧ SoundElements k vs

/-- The entries are sound, each under the key of its key value. -/
def SoundEntries (k : Shape) : List (HashKey × Value × Value) → Prop
  | [] => True
  | (key, keyValue, v) :: entries =>
    keyValue.hashKey? = some key ∧ keyValue.Sound k ∧ v.Sound k ∧ SoundEntries k entries

end

section Values

variable {k : Shape}

/-- The elements are sound one by one. -/
theorem soundElements_iff {vs : List Value} : SoundElements k vs ↔ ∀ v ∈ vs, v.Sound k := by
  induction vs with
  | nil => simp [SoundElements]
  | cons v vs ih => rw [SoundElements, ih, List.forall_mem_cons]

/-- An entry stands under the key that its key value makes. -/
theorem soundEntries_iff {entries : HashEntries} :
    SoundEntries k entries ↔ ∀ key keyValue v, (key, keyValue, v) ∈ entries →
      keyValue.hashKey? = some key ∧ keyValue.Sound k ∧ v.Sound k := by
  induction entries with
  | nil => simp [SoundEntries]
  | cons e entries ih =>
    obtain ⟨key, keyValue, v⟩ := e
    rw [SoundEntries, ih]
    constructor
    · rintro ⟨hkey, hk, hv, hrest⟩ key' k' v' hmem
      rcases List.mem_cons.mp hmem with heq | hmem
      · cases heq
        exact ⟨hkey, hk, hv⟩
      · exact hrest key' k' v' hmem
    · intro hall
      obtain ⟨hkey, hk, hv⟩ := hall key keyValue v List.mem_cons_self
      exact ⟨hkey, hk, hv, fun key' k' v' hmem => hall key' k' v' (List.mem_cons_of_mem _ hmem)⟩

/-- Nothing is asked of a value without parts and without a body. -/
theorem Value.sound_of_isPlain {v : Value} (h : v.isPlain = true) : v.Sound k := by
  cases v <;> trivial

/-- A sound value is an ordinary one. -/
theorem Value.Sound.isSignal {v : Value} (h : v.Sound k) : v.isSignal = false := by
  cases v with
  | returnSignal _ | error _ => exact h.elim
  | _ => rfl

end Values

/-! ## The heap -/

namespace Heap

/-- Every value that is bound in a scope is sound. -/
def Sound (k : Shape) (h : Heap) : Prop :=
  ∀ (i : Nat) (s : Scope), h.scopes[i]? = some s → ∀ e ∈ s.bindings, e.2.Sound k

variable {k : Shape} {h : Heap}

theorem sound_empty : empty.Sound k := by
  intro i s hs
  simp [empty] at hs

/-- What the links from scope to scope keep holds of every scope that a lookup visits. -/
theorem exists_of_mem_chain {P : ScopeId → Prop}
    (hlink : ∀ {id s o}, P id → h.scope? id = some s → s.outer = some o → P o) {id : ScopeId}
    (hid : P id) {s : Scope} (hs : s ∈ h.chain id) : ∃ i, P i ∧ h.scope? i = some s := by
  induction id using chain.induct h with
  | case1 id hnone =>
    rw [chain, hnone] at hs
    cases hs
  | case2 id t hsome houter =>
    rw [chain, hsome] at hs
    simp only [houter, List.mem_singleton] at hs
    exact ⟨id, hid, hs ▸ hsome⟩
  | case3 id t hsome outer houter hlt ih =>
    rw [chain, hsome] at hs
    simp only [houter, if_pos hlt, List.mem_cons] at hs
    rcases hs with rfl | hs
    · exact ⟨id, hid, hsome⟩
    · exact ih (hlink hid hsome houter) hs
  | case4 id t hsome outer houter hlt =>
    rw [chain, hsome] at hs
    simp only [houter, if_neg hlt, List.mem_singleton] at hs
    exact ⟨id, hid, hs ▸ hsome⟩

/-- What a name is found to have was bound in some scope. -/
theorem Sound.lookup (hh : h.Sound k) {id : ScopeId} {name : String} {v : Value}
    (hv : h.lookup id name = some v) : v.Sound k := by
  obtain ⟨s, hs, hget⟩ := List.exists_of_findSome?_eq_some hv
  obtain ⟨i, -, hi⟩ := exists_of_mem_chain (P := fun _ => True) (fun _ _ _ => trivial) trivial hs
  exact hh i.index s hi _ (OrderedMap.mem_of_get? hget)

/-- All other bindings stay. -/
theorem Sound.set (hh : h.Sound k) {id : ScopeId} {name : String} {v : Value} (hv : v.Sound k) :
    (h.set id name v).Sound k := by
  intro i s hs e he
  unfold Heap.set at hs
  rw [Array.getElem?_modify] at hs
  split at hs
  · obtain ⟨t, ht, rfl⟩ := Option.map_eq_some_iff.mp hs
    rcases OrderedMap.eq_or_mem_of_mem_insert he with rfl | he
    · exact hv
    · exact hh i t ht e he
  · exact hh i s hs e he

theorem Sound.newScope (hh : h.Sound k) (outer : Option ScopeId) :
    (h.newScope outer).2.Sound k := by
  intro i s hs e he
  unfold Heap.newScope at hs
  rw [Array.getElem?_push] at hs
  split at hs
  · cases hs
    cases he
  · exact hh i s hs e he

end Heap

/-! ## The discipline -/

/-- The faults that may come up: placeholders of the shape, and calls beyond the limit. -/
inductive Fault.Allowed (k : Shape) (limit : Option Nat) : Fault → Prop
  | placeholder {kind : Placeholder} (h : k.placeholder kind) : Allowed k limit (.placeholder kind)
  | unnamed {i : Identifier} (h : k.name i) (hmissing : i.isMissing = true) :
    Allowed k limit (.placeholder .identifier)
  | callDepth {n : Nat} (h : limit = some n) : Allowed k limit (.callDepth n)

/-- A value that is returned is sound, and a fault is one of those that may come up. -/
def Unwind.Sound (k : Shape) (limit : Option Nat) : Unwind → Prop
  | .returning v => v.Sound k
  | .fault f => f.Allowed k limit
  | .error _ | .exhausted => True

/-- All values are sound, and the limit on nested calls stays what it is. -/
def Discipline.data (k : Shape) : Discipline where
  shape := k
  Inv m := m.heap.Sound k
  Step m n := n.calls.limit = m.calls.limit
  Good _ v := v.Sound k
  Unwinds m u := u.Sound k m.calls.limit

namespace Discipline

variable {k : Shape} {m : Machine}

/-- Each primitive step of evaluation keeps the heap sound and answers with sound values. -/
theorem lawful_data (k : Shape) (env : ScopeId) : (data k).Lawful env where
  refl _ := rfl
  trans h h' := h'.trans h
  mono _ hv := hv
  plain _ _ h := Value.sound_of_isPlain h
  element h hv := soundElements_iff.mp h _ hv
  entry h hmem := (soundEntries_iff.mp h _ _ _ hmem).2.2
  lookup hm hv := Heap.Sound.lookup hm hv
  bindName hm _ hv := .ok () _ rfl (Heap.Sound.set hm hv) rfl trivial
  array hm hvs := .ok _ _ rfl hm rfl (soundElements_iff.mpr hvs)
  hash hm hes := .ok _ _ rfl hm rfl (soundEntries_iff.mpr hes)
  function hm hf := .ok _ _ rfl hm rfl hf
  println _ hm := .ok () _ rfl hm rfl trivial
  error _ _ := trivial
  returning hv := hv
  placeholder _ _ h := .placeholder h
  unnamed _ _ hi hmissing := .unnamed hi hmissing

/-- So does a call, since the body of a sound function has the shape. -/
theorem lawfulCalls_data (k : Shape) : (data k).LawfulCalls where
  lawful := lawful_data k
  literal h := h
  newScope outer hm := .ok _ _ rfl (Heap.Sound.newScope hm outer) rfl trivial
  inFrame frame _ hm hbody := by
    refine keeps_inFrame hm hbody ?_ ?_ (fun _ _ h => h) (fun _ _ h => h) fun _ _ h => h
    · intro f hpush
      obtain ⟨n, rfl, hlimit⟩ := CallStack.of_push_error hpush
      exact ⟨rfl, .callDepth hlimit⟩
    · -- Popping the frame changes neither the heap nor the limit.
      intro calls hpush
      exact ⟨hm, fun _ hn hstep => ⟨hn, hstep.trans (CallStack.limit_of_push hpush)⟩⟩
  exhausted _ := trivial

end Discipline

end Ember
