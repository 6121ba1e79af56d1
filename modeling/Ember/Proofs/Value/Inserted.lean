import Ember.OrderedMap
import Mathlib.Data.List.Induction
import Mathlib.Data.List.Perm.Subperm

/-!
# Maps built by insertion

What a map holds after any number of insertions can be read off the insertions. A key has the place
of its first insertion among the keys (`OrderedMap.pairwise_keys_ofList`) and the value of its last
one (`OrderedMap.get?_ofList`). No key stands twice.

An insertion is one of two things. Under a new key it adds an entry at the end, and under a key that
is there it overwrites the entry at the place of that key.
-/

namespace Ember

theorem getElem?_concat_eq_some_iff {α : Type} {xs : List α} {x y : α} {i : Nat} :
    (xs ++ [x])[i]? = some y ↔ xs[i]? = some y ∨ (i = xs.length ∧ x = y) := by
  rcases Nat.lt_trichotomy i xs.length with h | rfl | h
  · simp [List.getElem?_append_left h, Nat.ne_of_lt h]
  · simp
  · have hle : (xs ++ [x]).length ≤ i := by
      rw [List.length_append, List.length_singleton]
      exact h
    simp [List.getElem?_eq_none hle, List.getElem?_eq_none (Nat.le_of_lt h), Nat.ne_of_gt h]

namespace OrderedMap

variable {κ α : Type} [DecidableEq κ]

/-! ## One insertion -/

theorem insert_of_not_mem {m : OrderedMap κ α} {key : κ} (h : key ∉ keys m) (a : α) :
    insert key a m = m ++ [(key, a)] := by
  induction m with
  | nil => rfl
  | cons e m ih =>
    obtain ⟨k, b⟩ := e
    obtain ⟨hne, hm⟩ := List.ne_and_not_mem_of_not_mem_cons h
    rw [insert, if_neg hne.symm, ih hm]
    rfl

theorem insert_of_getElem? {m : OrderedMap κ α} (hm : (keys m).Nodup) {key : κ} {i : Nat}
    (h : (keys m)[i]? = some key) (a : α) : insert key a m = m.set i (key, a) := by
  induction m generalizing i with
  | nil => cases h
  | cons e m ih =>
    obtain ⟨k, b⟩ := e
    obtain ⟨hk, hm⟩ := List.nodup_cons.mp hm
    cases i with
    | zero =>
      obtain rfl : k = key := Option.some.inj h
      rw [insert, if_pos rfl]
      rfl
    | succ i =>
      have hi : (keys m)[i]? = some key := h
      have hne : k ≠ key := by
        rintro rfl
        exact hk (List.mem_of_getElem? hi)
      rw [insert, if_neg hne, ih hm hi]
      rfl

/-- An entry is what its key is bound to. -/
theorem get?_eq_some_iff {m : OrderedMap κ α} (hm : (keys m).Nodup) {key : κ} {a : α} :
    get? m key = some a ↔ (key, a) ∈ m := by
  refine ⟨mem_of_get?, fun h => ?_⟩
  induction m with
  | nil => cases h
  | cons e m ih =>
    obtain ⟨k, b⟩ := e
    obtain ⟨hk, hm⟩ := List.nodup_cons.mp hm
    rw [get?]
    rcases List.mem_cons.mp h with heq | h
    · cases heq
      exact if_pos rfl
    · have hne : k ≠ key := by
        rintro rfl
        exact hk (List.mem_map.mpr ⟨_, h, rfl⟩)
      rw [if_neg hne, ih hm h]

theorem get?_eq_none_iff {m : OrderedMap κ α} {key : κ} : get? m key = none ↔ key ∉ keys m := by
  rw [← get?_isSome_iff, Option.not_isSome_iff_eq_none]

/-- Looking up the keys one after the other gives the entries. -/
theorem map_get?_keys {m : OrderedMap κ α} (hm : (keys m).Nodup) :
    (keys m).map (get? m) = m.map fun e => some e.2 := by
  rw [keys, List.map_map]
  exact List.map_congr_left fun e he => (get?_eq_some_iff hm).mpr he

/--
Two maps of the same length, of which one has all keys of the other: they have the same keys. So it
is enough to look up the keys of one in the other.
-/
theorem rel_get?_iff {β : Type} {R : α → β → Prop} {m : OrderedMap κ α} {n : OrderedMap κ β}
    (hm : (keys m).Nodup) (hn : (keys n).Nodup) :
    (m.length = n.length ∧ ∀ e ∈ m, ∃ b, get? n e.1 = some b ∧ R e.2 b) ↔
      ∀ key, Option.Rel R (get? m key) (get? n key) := by
  constructor
  · rintro ⟨hlength, hentries⟩ key
    have hsubset : keys m ⊆ keys n := by
      intro k hk
      obtain ⟨e, he, rfl⟩ := List.mem_map.mp hk
      obtain ⟨b, hb, -⟩ := hentries e he
      exact (get?_isSome_iff n e.1).mp (by rw [hb]; rfl)
    -- None of these keys stands twice and there are as many on both sides, so they are all.
    have hperm : (keys m).Perm (keys n) := by
      refine (List.subperm_of_subset hm hsubset).perm_of_length_le ?_
      simp [keys, hlength]
    cases hget : get? m key with
    | some a =>
      obtain ⟨b, hb, hab⟩ := hentries (key, a) (mem_of_get? hget)
      rw [hb]
      exact .some hab
    | none =>
      have hkey : key ∉ keys n := fun h => get?_eq_none_iff.mp hget (hperm.mem_iff.mpr h)
      rw [get?_eq_none_iff.mpr hkey]
      exact .none
  · intro h
    have hperm : (keys m).Perm (keys n) := by
      refine (List.perm_ext_iff_of_nodup hm hn).mpr fun key => ?_
      have hkey := h key
      rw [← get?_isSome_iff, ← get?_isSome_iff]
      generalize get? m key = a, get? n key = b at hkey
      cases hkey <;> rfl
    refine ⟨by simpa [keys] using hperm.length_eq, fun e he => ?_⟩
    have hkey := h e.1
    rw [(get?_eq_some_iff hm).mpr he] at hkey
    generalize get? n e.1 = b at hkey
    cases hkey with
    | some hab => exact ⟨_, rfl, hab⟩

/-! ## Many insertions -/

/-- Inserts entries one after the other. -/
def insertAll (m : OrderedMap κ α) (es : List (κ × α)) : OrderedMap κ α :=
  es.foldl (fun m e => insert e.1 e.2 m) m

/-- The map that insertions make of the empty one. -/
def ofList (es : List (κ × α)) : OrderedMap κ α := insertAll [] es

/-- What was inserted last under a key. -/
def last? (es : List (κ × α)) (key : κ) : Option α :=
  (es.reverse.find? fun e => e.1 = key).map Prod.snd

theorem insertAll_concat (m : OrderedMap κ α) (es : List (κ × α)) (e : κ × α) :
    insertAll m (es ++ [e]) = insert e.1 e.2 (insertAll m es) := by
  simp [insertAll]

theorem last?_concat (es : List (κ × α)) (e : κ × α) (key : κ) :
    last? (es ++ [e]) key = if e.1 = key then some e.2 else last? es key := by
  by_cases h : e.1 = key <;> simp [last?, h]

theorem last?_eq_none_iff {es : List (κ × α)} {key : κ} :
    last? es key = none ↔ key ∉ es.map Prod.fst := by
  simp only [last?, Option.map_eq_none_iff, List.find?_eq_none, List.mem_reverse, decide_eq_true_eq,
    List.mem_map, not_exists, not_and]

/-- A key has the value of its last insertion, or else the one that it had before. -/
theorem get?_insertAll (m : OrderedMap κ α) (es : List (κ × α)) (key : κ) :
    get? (insertAll m es) key = (last? es key).or (get? m key) := by
  induction es using List.reverseRecOn with
  | nil => rfl
  | append_singleton es e ih =>
    rw [insertAll_concat, last?_concat]
    by_cases h : e.1 = key
    · rw [if_pos h, ← h, get?_insert_self]
      rfl
    · rw [if_neg h, get?_insert_of_ne _ (Ne.symm h), ih]

theorem get?_insertAll_append (m : OrderedMap κ α) (before after : List (κ × α)) {key : κ} (a : α)
    (h : key ∉ after.map Prod.fst) :
    get? (insertAll m (before ++ (key, a) :: after)) key = some a := by
  rw [insertAll, List.foldl_append, List.foldl_cons, ← insertAll, get?_insertAll,
    last?_eq_none_iff.mpr h, Option.none_or, get?_insert_self]

theorem get?_ofList (es : List (κ × α)) (key : κ) : get? (ofList es) key = last? es key := by
  rw [ofList, get?_insertAll, get?_nil, Option.or_none]

theorem nodup_keys_ofList (es : List (κ × α)) : (keys (ofList es)).Nodup := by
  induction es using List.reverseRecOn with
  | nil => exact List.nodup_nil
  | append_singleton es e ih =>
    rw [ofList, insertAll_concat]
    exact nodup_keys_insert ih _ _

/-- Every entry was inserted. -/
theorem mem_of_mem_ofList {es : List (κ × α)} {e : κ × α} (h : e ∈ ofList es) : e ∈ es := by
  induction es using List.reverseRecOn with
  | nil => exact h
  | append_singleton es d ih =>
    rw [ofList, insertAll_concat] at h
    rcases eq_or_mem_of_mem_insert h with rfl | h
    · exact List.mem_append_right es List.mem_cons_self
    · exact List.mem_append_left [d] (ih h)

theorem mem_keys_ofList {es : List (κ × α)} {key : κ} :
    key ∈ keys (ofList es) ↔ key ∈ es.map Prod.fst := by
  rw [← not_iff_not, ← get?_eq_none_iff, get?_ofList, last?_eq_none_iff]

/-- The keys stand in the order of their first insertions. -/
theorem pairwise_keys_ofList (es : List (κ × α)) :
    (keys (ofList es)).Pairwise fun k k' =>
      (es.map Prod.fst).idxOf k < (es.map Prod.fst).idxOf k' := by
  induction es using List.reverseRecOn with
  | nil => exact .nil
  | append_singleton es e ih =>
    -- The first insertions so far keep their places among the insertions.
    have hplace : ∀ k ∈ keys (ofList es), ((es ++ [e]).map Prod.fst).idxOf k =
        (es.map Prod.fst).idxOf k := by
      intro k hk
      rw [List.map_append, List.idxOf_append, if_pos (mem_keys_ofList.mp hk)]
    have hold : (keys (ofList es)).Pairwise fun k k' =>
        ((es ++ [e]).map Prod.fst).idxOf k < ((es ++ [e]).map Prod.fst).idxOf k' := by
      refine ih.imp_of_mem fun hk hk' hlt => ?_
      rwa [hplace _ hk, hplace _ hk']
    rw [ofList, insertAll_concat, keys_insert]
    split
    · exact hold
    · next hnew =>
      refine List.pairwise_append.mpr ⟨hold, List.pairwise_singleton _ _, ?_⟩
      intro k hk k' hk'
      obtain rfl : k' = e.1 := List.mem_singleton.mp hk'
      have hlt := List.idxOf_lt_length_iff.mpr (mem_keys_ofList.mp hk)
      have hlast : e.1 ∉ es.map Prod.fst := fun h => hnew (mem_keys_ofList.mpr h)
      rw [hplace k hk, List.map_append, List.idxOf_append, if_neg hlast]
      omega

end OrderedMap

end Ember
