import Ember.Proofs.Value.Inserted
import Ember.Value.Basic
import Mathlib.Data.Finset.Card

/-!
# Hashes in slots

The entries of a hash may also be kept in slots, with an index from keys to slots beside them. The
index is a table of its own, so nothing in the form of the data makes its slots exist. That they do
is an invariant: a table and a map that hold the same (`SlotTable.Represents`) hold the same after
an insertion (`SlotTable.Represents.insert`). So no slot is missed, and the table is the map of its
insertions (`SlotTable.ofList_spec`).
-/

namespace Ember

/-- A slot that was asked for and is not there. -/
structure OutOfRange where
  slot : Nat

variable [Hashable HashKey]

/-- The entries of a hash in the order of their slots, and the slot of each key. -/
structure SlotTable where
  index : Std.HashMap HashKey Nat
  entries : Array (Value × Value)

namespace SlotTable

/-- A table without entries. -/
def empty : SlotTable := ⟨∅, #[]⟩

/-- Stores an entry in the slot of its key, or in a new one. -/
def insert (t : SlotTable) (key : HashKey) (entry : Value × Value) : Except OutOfRange SlotTable :=
  match t.index[key]? with
  | some slot =>
    if h : slot < t.entries.size then .ok { t with entries := t.entries.set slot entry }
    else .error ⟨slot⟩
  | none => .ok ⟨t.index.insert key t.entries.size, t.entries.push entry⟩

/-- The value stored under a key. -/
def get (t : SlotTable) (key : HashKey) : Except OutOfRange (Option Value) :=
  match t.index[key]? with
  | some slot =>
    match t.entries[slot]? with
    | some entry => .ok (some entry.2)
    | none => .error ⟨slot⟩
  | none => .ok none

/-- The number of entries. -/
def length (t : SlotTable) : Nat := t.entries.size

/-- The entries, from the first slot to the last. -/
def toList (t : SlotTable) : List (Value × Value) := t.entries.toList

/-- Stores entries one after the other in an empty table. -/
def ofList (es : List (HashKey × Value × Value)) : Except OutOfRange SlotTable :=
  es.foldlM (fun t e => t.insert e.1 e.2) empty

theorem ofList_concat (es : List (HashKey × Value × Value)) (e : HashKey × Value × Value) :
    ofList (es ++ [e]) = ofList es >>= fun t => t.insert e.1 e.2 := by
  simp [ofList, List.foldlM_append]

/-! ## The map that a table holds -/

/-- The entries of the table are those of the map, and the index has the place of each key. -/
structure Represents (t : SlotTable) (m : HashEntries) : Prop where
  entries : t.entries.toList = m.map Prod.snd
  index : ∀ (key : HashKey) (slot : Nat),
    t.index[key]? = some slot ↔ (OrderedMap.keys m)[slot]? = some key

theorem represents_empty : Represents empty [] where
  entries := rfl
  index := by simp [empty, OrderedMap.keys]

namespace Represents

variable {t : SlotTable} {m : HashEntries} {key : HashKey} {slot : Nat}

theorem size_eq (h : t.Represents m) : t.entries.size = m.length := by
  rw [← Array.length_toList, h.entries, List.length_map]

/-- A key that has a slot has one that exists. -/
theorem lt_size (h : t.Represents m) (hslot : t.index[key]? = some slot) :
    slot < t.entries.size := by
  obtain ⟨hlt, -⟩ := List.getElem?_eq_some_iff.mp ((h.index key slot).mp hslot)
  rwa [OrderedMap.keys, List.length_map, ← h.size_eq] at hlt

theorem index_eq_none_iff (h : t.Represents m) :
    t.index[key]? = none ↔ key ∉ OrderedMap.keys m := by
  rw [Option.eq_none_iff_forall_ne_some, List.mem_iff_getElem?, not_exists]
  exact forall_congr' fun slot => not_congr (h.index key slot)

/-- An insertion finds its slot, and afterwards table and map hold the same again. -/
theorem insert (h : t.Represents m) (hm : (OrderedMap.keys m).Nodup) (key : HashKey)
    (entry : Value × Value) :
    ∃ t', t.insert key entry = .ok t' ∧ t'.Represents (OrderedMap.insert key entry m) := by
  unfold SlotTable.insert
  cases hslot : t.index[key]? with
  | some slot =>
    have hkey := (h.index key slot).mp hslot
    have hlt := h.lt_size hslot
    refine ⟨⟨t.index, t.entries.set slot entry hlt⟩, dif_pos hlt, ?_, ?_⟩
    · rw [OrderedMap.insert_of_getElem? hm hkey, Array.toList_set, h.entries, List.map_set]
    · rw [OrderedMap.keys_insert, if_pos (List.mem_of_getElem? hkey)]
      exact h.index
  | none =>
    -- The new slot is behind all others, as the new key is in the map.
    have hkey := h.index_eq_none_iff.mp hslot
    refine ⟨_, rfl, ?_, ?_⟩
    · simp [OrderedMap.insert_of_not_mem hkey, h.entries]
    · intro other slot
      have hsize : t.entries.size = (OrderedMap.keys m).length := by
        rw [h.size_eq, OrderedMap.keys, List.length_map]
      rw [OrderedMap.keys_insert, if_neg hkey, getElem?_concat_eq_some_iff, ← h.index,
        Std.HashMap.getElem?_insert, hsize]
      by_cases hother : key = other
      · subst hother
        simp [hslot, eq_comm]
      · simp [hother]

/-- In the slot of a key there is what the map has under the key. -/
theorem exists_entry (h : t.Represents m) (hm : (OrderedMap.keys m).Nodup)
    (hslot : t.index[key]? = some slot) :
    ∃ a, t.entries[slot]? = some a ∧ OrderedMap.get? m key = some a := by
  have hkey := (h.index key slot).mp hslot
  rw [OrderedMap.keys, List.getElem?_map, Option.map_eq_some_iff] at hkey
  obtain ⟨⟨_, a⟩, he, rfl⟩ := hkey
  refine ⟨a, ?_, (OrderedMap.get?_eq_some_iff hm).mpr (List.mem_of_getElem? he)⟩
  rw [← Array.getElem?_toList, h.entries, List.getElem?_map, he]
  rfl

/-- A lookup finds its slot and what the map has under the key. -/
theorem get_eq (h : t.Represents m) (hm : (OrderedMap.keys m).Nodup) (key : HashKey) :
    t.get key = .ok ((OrderedMap.get? m key).map Prod.snd) := by
  unfold SlotTable.get
  cases hslot : t.index[key]? with
  | some slot =>
    obtain ⟨a, ha, hget⟩ := h.exists_entry hm hslot
    simp only [ha, hget]
    rfl
  | none =>
    rw [OrderedMap.get?_eq_none_iff.mpr (h.index_eq_none_iff.mp hslot)]
    rfl

end Represents

/--
However many entries are stored, no slot is missed, and the table is the map of its insertions.
-/
theorem exists_ofList (es : List (HashKey × Value × Value)) :
    ∃ t, ofList es = .ok t ∧ t.Represents (OrderedMap.ofList es) := by
  induction es using List.reverseRecOn with
  | nil => exact ⟨empty, rfl, represents_empty⟩
  | append_singleton es e ih =>
    obtain ⟨t, ht, h⟩ := ih
    obtain ⟨t', ht', h'⟩ := h.insert (OrderedMap.nodup_keys_ofList es) e.1 e.2
    refine ⟨t', ?_, ?_⟩
    · rw [ofList_concat, ht]
      exact ht'
    · rwa [OrderedMap.ofList, OrderedMap.insertAll_concat]

/--
Any sequence of insertions makes a table. Its index and the slots are one for one: exactly the keys
that were inserted have a slot, each of them one that exists, and each slot is that of one key. A
lookup finds the value of the last insertion under the key, or nothing if there was none. The length
is the number of keys. The entries are one for each key, in the order of the first insertions, and
each is that of the last insertion under its key. All this is as in the map that the evaluator makes
of the same insertions.
-/
theorem ofList_spec (es : List (HashKey × Value × Value)) :
    ∃ t, ofList es = .ok t ∧
      (∀ key : HashKey, (∃ slot, t.index[key]? = some slot) ↔ key ∈ es.map Prod.fst) ∧
      (∀ (key : HashKey) (slot : Nat), t.index[key]? = some slot → slot < t.entries.size) ∧
      (∀ slot < t.entries.size, ∃! key : HashKey, t.index[key]? = some slot) ∧
      (∀ key, t.get key = .ok ((OrderedMap.last? es key).map Prod.snd)) ∧
      t.length = (es.map Prod.fst).toFinset.card ∧
      (∃ keys : List HashKey, (∀ key, key ∈ keys ↔ key ∈ es.map Prod.fst) ∧
        keys.Pairwise (fun k k' => (es.map Prod.fst).idxOf k < (es.map Prod.fst).idxOf k') ∧
        t.toList.map some = keys.map (OrderedMap.last? es)) ∧
      (∀ key, t.get key = .ok ((OrderedMap.get? (OrderedMap.ofList es) key).map Prod.snd)) ∧
      t.toList = (OrderedMap.ofList es).map Prod.snd := by
  obtain ⟨t, ht, h⟩ := exists_ofList es
  have hnodup := OrderedMap.nodup_keys_ofList es
  have hsize : t.entries.size = (OrderedMap.keys (OrderedMap.ofList es)).length := by
    rw [h.size_eq, OrderedMap.keys, List.length_map]
  refine ⟨t, ht, ?_, fun _ _ => h.lt_size, ?_, ?_, ?_, ⟨_, fun _ => OrderedMap.mem_keys_ofList,
    OrderedMap.pairwise_keys_ofList es, ?_⟩, h.get_eq hnodup, h.entries⟩
  · intro key
    rw [← OrderedMap.mem_keys_ofList, List.mem_iff_getElem?]
    exact exists_congr (h.index key)
  · intro slot hslot
    rw [hsize] at hslot
    -- Slots are places in the list of keys, where no key stands twice.
    refine ⟨_, (h.index _ slot).mpr (List.getElem?_eq_getElem hslot), fun key hkey => ?_⟩
    have hsome := (h.index key slot).mp hkey
    rw [List.getElem?_eq_getElem hslot] at hsome
    exact (Option.some.inj hsome).symm
  · intro key
    rw [h.get_eq hnodup, OrderedMap.get?_ofList]
  · rw [length, hsize, ← List.toFinset_card_of_nodup hnodup]
    congr 1
    ext key
    rw [List.mem_toFinset, List.mem_toFinset, OrderedMap.mem_keys_ofList]
  · rw [← funext (OrderedMap.get?_ofList es), OrderedMap.map_get?_keys hnodup, toList, h.entries,
      List.map_map]
    rfl

end SlotTable

end Ember
