/-!
# Maps in order of insertion

A map as the list of its entries. Inserting under a new key adds an entry at the end; inserting
under a key that is there replaces its value and leaves the entry where it is. So the entries stand
in the order in which their keys were first inserted.
-/

namespace Ember

/-- The entries of a map, in the order of the first insertion of their keys. -/
abbrev OrderedMap (κ α : Type) := List (κ × α)

namespace OrderedMap

variable {κ α : Type} [DecidableEq κ]

/-- Binds a key, in place of what was bound to it before. -/
def insert (key : κ) (a : α) : OrderedMap κ α → OrderedMap κ α
  | [] => [(key, a)]
  | (k, b) :: m => if k = key then (key, a) :: m else (k, b) :: insert key a m

/-- What is bound to a key. -/
def get? (m : OrderedMap κ α) (key : κ) : Option α :=
  match m with
  | [] => none
  | (k, a) :: m => if k = key then some a else get? m key

/-- The keys, in the order of their first insertion. -/
def keys (m : OrderedMap κ α) : List κ := m.map Prod.fst

@[simp] theorem get?_nil (key : κ) : get? ([] : OrderedMap κ α) key = none := rfl

@[simp] theorem get?_insert_self (m : OrderedMap κ α) (key : κ) (a : α) :
    get? (insert key a m) key = some a := by
  induction m with
  | nil => simp [insert, get?]
  | cons e m ih =>
    unfold insert
    split <;> simp_all [get?]

theorem get?_insert_of_ne (m : OrderedMap κ α) {key other : κ} (h : other ≠ key) (a : α) :
    get? (insert key a m) other = get? m other := by
  induction m with
  | nil => simp [insert, get?, h.symm]
  | cons e m ih =>
    unfold insert
    split
    · next hk => subst hk; simp [get?, h.symm]
    · simp only [get?, ih]

/-- A key keeps its place; a new one comes last. -/
theorem keys_insert (m : OrderedMap κ α) (key : κ) (a : α) :
    keys (insert key a m) = if key ∈ keys m then keys m else keys m ++ [key] := by
  induction m with
  | nil => simp [insert, keys]
  | cons e m ih =>
    unfold insert
    split
    · next hk => subst hk; simp [keys]
    · next hk =>
      simp only [keys, List.map_cons] at ih ⊢
      rw [ih]
      have : ¬ key = e.1 := fun h => hk h.symm
      by_cases hm : key ∈ m.map Prod.fst <;> simp [this, hm]

/-- No key comes to stand twice. -/
theorem nodup_keys_insert {m : OrderedMap κ α} (h : (keys m).Nodup) (key : κ) (a : α) :
    (keys (insert key a m)).Nodup := by
  rw [keys_insert]
  split
  · exact h
  · next hk =>
    rw [List.nodup_append]
    refine ⟨h, by simp, ?_⟩
    rintro k hm _ hn rfl
    exact hk (List.mem_singleton.mp hn ▸ hm)

/-- A key is bound exactly when it is among the keys. -/
theorem get?_isSome_iff (m : OrderedMap κ α) (key : κ) : (get? m key).isSome ↔ key ∈ keys m := by
  induction m with
  | nil => simp [keys]
  | cons e m ih =>
    unfold get?
    split
    · next hk => subst hk; simp [keys]
    · next hk =>
      rw [ih]
      simp [keys, Ne.symm hk]

/-- What is bound to a key is an entry. -/
theorem mem_of_get? {m : OrderedMap κ α} {key : κ} {a : α} (h : get? m key = some a) :
    (key, a) ∈ m := by
  induction m with
  | nil => cases h
  | cons e m ih =>
    obtain ⟨k, b⟩ := e
    rw [get?] at h
    split at h
    · next hk =>
      cases h
      rw [hk]
      exact List.mem_cons_self
    · exact List.mem_cons_of_mem _ (ih h)

/-- Inserting makes no entry but the one inserted. -/
theorem eq_or_mem_of_mem_insert {m : OrderedMap κ α} {key : κ} {a : α} {e : κ × α}
    (h : e ∈ insert key a m) : e = (key, a) ∨ e ∈ m := by
  induction m with
  | nil => exact .inl (List.mem_singleton.mp h)
  | cons b m ih =>
    obtain ⟨k, b⟩ := b
    rw [insert] at h
    split at h
    · exact (List.mem_cons.mp h).imp_right (List.mem_cons_of_mem _)
    · rcases List.mem_cons.mp h with rfl | h
      · exact .inr List.mem_cons_self
      · exact (ih h).imp_right (List.mem_cons_of_mem _)

end OrderedMap

end Ember
