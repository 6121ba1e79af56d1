import Ember.Proofs.Eval.Pairing
import Ember.Proofs.Value.Slots
import Ember.Value.Equality

/-!
# Values with the same contents

`Value.alike` compares the contents of two values, and for hashes it goes through the entries of the
first one only. Where all hashes are built by insertion (`Value.IsBuilt`) that is enough: no key
stands twice, so two hashes of one length of which one has the keys of the other have the same keys.
Two hashes are then alike exactly if they have alike values under the same keys, in whatever order
these were inserted (`Value.alike_hash_iff`). It follows, by induction on values, that being alike
is an equivalence (`Value.alike_equivalence`).
-/

namespace Ember

namespace Value

/-! ## Induction on values -/

/-- The contents of a value that holds no other values. -/
inductive Leaf where
  | integer (n : Int64)
  | boolean (b : Bool)
  | string (s : String)
  | function (id : Identity)
  | builtin (b : Builtin)
  | null
  | error (message : String)

/-- The contents of a value, if it holds no other values. -/
def leaf? : Value → Option Leaf
  | integer n => some (.integer n)
  | boolean b => some (.boolean b)
  | string s => some (.string s)
  | function id _ _ => some (.function id)
  | builtin b => some (.builtin b)
  | null => some .null
  | error message => some (.error message)
  | array _ _ | hash _ _ | returnSignal _ => none

/-- What goes from the elements of an array and from the values of a hash to the whole holds. -/
theorem induction {P : Value → Prop} (leaf : ∀ v l, v.leaf? = some l → P v)
    (array : ∀ id vs, (∀ v ∈ vs, P v) → P (.array id vs))
    (hash : ∀ id es, (∀ e ∈ es, P e.2.2) → P (.hash id es))
    (returnSignal : ∀ v, P v → P (.returnSignal v)) : ∀ v, P v
  | .integer _ | .boolean _ | .string _ | .function _ _ _ | .builtin _ | .null | .error _ =>
    leaf _ _ rfl
  | .array id vs => array id vs fun v _ => induction leaf array hash returnSignal v
  | .hash id es => hash id es fun e _ => induction leaf array hash returnSignal e.2.2
  | .returnSignal v => returnSignal v (induction leaf array hash returnSignal v)
decreasing_by
  · decreasing_tactic
  · exact (sizeOf_lt_of_entry id ‹e ∈ es›).2
  · decreasing_tactic

/-! ## What a value is alike -/

section Cases

variable {v w : Value} {id : Identity}

/-- Leaves are alike when they are the same leaf. -/
theorem alike_iff_of_leaf {l : Leaf} (h : v.leaf? = some l) :
    v.alike w = true ↔ w.leaf? = some l := by
  rw [← h]
  cases v <;> cases h <;> cases w <;> simp [alike, leaf?] <;> exact eq_comm

theorem alikeList_iff {vs ws : List Value} :
    alikeList vs ws = true ↔ List.Forall₂ (fun a b => a.alike b = true) vs ws := by
  induction vs generalizing ws with
  | nil => cases ws <;> simp [alikeList]
  | cons v vs ih => cases ws <;> simp [alikeList, ih]

/-- Arrays are alike element by element, whatever their identities. -/
theorem alike_array_iff {vs : List Value} : (array id vs).alike w = true ↔
    ∃ j ws, w = array j ws ∧ List.Forall₂ (fun a b => a.alike b = true) vs ws := by
  cases w <;> simp [alike, alikeList_iff]

/-- Every entry on the left has its key on the right, with a value like its own. -/
theorem alikeEntries_iff {m n : HashEntries} : alikeEntries m n = true ↔
    ∀ e ∈ m, ∃ b, OrderedMap.get? n e.1 = some b ∧ e.2.2.alike b.2 = true := by
  induction m with
  | nil => simp [alikeEntries]
  | cons e m ih =>
    obtain ⟨key, k, a⟩ := e
    rcases hget : OrderedMap.get? n key with _ | ⟨k', b⟩ <;> simp [alikeEntries, ih, hget]

/-- Signals are alike when what they carry is. -/
theorem alike_returnSignal_iff :
    (returnSignal v).alike w = true ↔ ∃ b, w = returnSignal b ∧ v.alike b = true := by
  cases w <;> simp [alike]

/-- The values under a key of two hashes: neither has the key, or both with alike values. -/
def AlikeUnder (m n : HashEntries) (key : HashKey) : Prop :=
  Option.Rel (fun a b => a.2.alike b.2 = true) (OrderedMap.get? m key) (OrderedMap.get? n key)

/-- Where no key stands twice, alike hashes have alike values under the same keys. -/
theorem alike_hash_hash_iff {i j : Identity} {m n : HashEntries} (hm : (OrderedMap.keys m).Nodup)
    (hn : (OrderedMap.keys n).Nodup) :
    (hash i m).alike (hash j n) = true ↔ ∀ key, AlikeUnder m n key := by
  unfold AlikeUnder
  rw [← OrderedMap.rel_get?_iff hm hn, alike, Bool.and_eq_true, beq_iff_eq, alikeEntries_iff]

end Cases

/-! ## Values built by insertion -/

/-- The entries of every hash in the value were inserted one after the other. -/
def IsBuilt (v : Value) : Prop :=
  ∀ (id : Identity) (entries : HashEntries), (hash id entries).Part v →
    ∃ es, entries = OrderedMap.ofList es

theorem isBuilt_of_leaf {v : Value} {l : Leaf} (h : v.leaf? = some l) : v.IsBuilt := by
  intro id entries hpart
  cases hpart <;> cases h

theorem isBuilt_array {id : Identity} {vs : List Value} (h : ∀ v ∈ vs, v.IsBuilt) :
    (array id vs).IsBuilt := by
  intro j entries hpart
  cases hpart with
  | element hv hpart => exact h _ hv j entries hpart

/-- A hash that was made by inserting built values is built. -/
theorem isBuilt_hash {id : Identity} {es : List (HashKey × Value × Value)}
    (h : ∀ e ∈ es, e.2.1.IsBuilt ∧ e.2.2.IsBuilt) : (hash id (OrderedMap.ofList es)).IsBuilt := by
  intro j entries hpart
  cases hpart with
  | whole => exact ⟨es, rfl⟩
  | key he hpart => exact (h _ (OrderedMap.mem_of_mem_ofList he)).1 j entries hpart
  | entry he hpart => exact (h _ (OrderedMap.mem_of_mem_ofList he)).2 j entries hpart

namespace IsBuilt

variable {v w : Value} {id : Identity}

/-- Insertion never leaves two entries under one key. -/
theorem nodup_keys {entries : HashEntries} (h : (hash id entries).IsBuilt) :
    (OrderedMap.keys entries).Nodup := by
  obtain ⟨es, rfl⟩ := h id entries (.whole _)
  exact OrderedMap.nodup_keys_ofList es

theorem element {vs : List Value} (h : (array id vs).IsBuilt) (hv : v ∈ vs) : v.IsBuilt :=
  fun _ _ hw => h _ _ (.element hv hw)

theorem entry {entries : HashEntries} (h : (hash id entries).IsBuilt) {e : HashKey × Value × Value}
    (he : e ∈ entries) : e.2.2.IsBuilt :=
  fun _ _ hw => h _ _ (.entry he hw)

theorem returned (h : (returnSignal v).IsBuilt) : v.IsBuilt := fun _ _ hw => h _ _ (.returned hw)

end IsBuilt

/-! ### Lists and options -/

section Relations

variable {α β γ : Type} {R : α → β → Prop} {S : β → γ → Prop} {T : α → γ → Prop}

theorem forall₂_imp_of_mem {Q : α → β → Prop} {xs : List α} {ys : List β}
    (h : List.Forall₂ R xs ys) (himp : ∀ x ∈ xs, ∀ y ∈ ys, R x y → Q x y) :
    List.Forall₂ Q xs ys := by
  induction h with
  | nil => exact .nil
  | @cons x y xs ys hxy _ ih =>
    simp only [List.forall_mem_cons] at himp
    exact .cons (himp.1.1 hxy) (ih fun a ha => (himp.2 a ha).2)

theorem forall₂_trans_of_mem {xs : List α} {ys : List β} {zs : List γ}
    (h : List.Forall₂ R xs ys) (h' : List.Forall₂ S ys zs)
    (himp : ∀ x ∈ xs, ∀ y ∈ ys, ∀ z ∈ zs, R x y → S y z → T x z) : List.Forall₂ T xs zs := by
  induction h generalizing zs with
  | nil =>
    cases h'
    exact .nil
  | @cons x y xs ys hxy _ ih =>
    cases h' with
    | @cons _ z _ zs hyz h' =>
      refine .cons (himp x List.mem_cons_self y List.mem_cons_self z List.mem_cons_self hxy hyz)
        (ih h' fun a ha b hb c hc => ?_)
      exact himp a (List.mem_cons_of_mem x ha) b (List.mem_cons_of_mem y hb) c
        (List.mem_cons_of_mem z hc)

theorem rel_flip {o : Option α} {p : Option β} (h : Option.Rel R o p) :
    Option.Rel (fun b a => R a b) p o := by
  cases h with
  | none => exact .none
  | some h => exact .some h

theorem rel_trans {o : Option α} {p : Option β} {q : Option γ} (h : Option.Rel R o p)
    (h' : Option.Rel S p q)
    (himp : ∀ a b c, o = some a → p = some b → q = some c → R a b → S b c → T a c) :
    Option.Rel T o q := by
  cases h with
  | none =>
    cases h'
    exact .none
  | some hab =>
    cases h' with
    | some hbc => exact .some (himp _ _ _ rfl rfl rfl hab hbc)

end Relations

/-! ## Being alike is an equivalence -/

section Equivalence

variable {u v w : Value}

/-- A value whose hashes are built by insertion is alike itself. -/
theorem alike_refl (hv : v.IsBuilt) : v.alike v = true := by
  induction v using Value.induction with
  | leaf v l hl => exact (alike_iff_of_leaf hl).mpr hl
  | array id vs ih =>
    exact alike_array_iff.mpr ⟨id, vs, rfl, List.forall₂_same.mpr fun v hmem =>
      ih v hmem (hv.element hmem)⟩
  | hash id es ih =>
    refine (alike_hash_hash_iff hv.nodup_keys hv.nodup_keys).mpr fun key => ?_
    unfold AlikeUnder
    cases hget : OrderedMap.get? es key with
    | none => exact .none
    | some a =>
      have hmem := OrderedMap.mem_of_get? hget
      exact .some (ih _ hmem (hv.entry hmem))
  | returnSignal v ih => exact alike_returnSignal_iff.mpr ⟨v, rfl, ih hv.returned⟩

/-- A hash is like nothing but a hash. -/
theorem exists_of_alike_hash {id : Identity} {m : HashEntries} (h : (hash id m).alike w = true) :
    ∃ j n, w = hash j n := by
  cases w with
  | hash j n => exact ⟨j, n, rfl⟩
  | _ => cases h

/-- Being alike goes both ways. For hashes that needs the keys to be there once only. -/
theorem alike_symm (hv : v.IsBuilt) (hw : w.IsBuilt) (h : v.alike w = true) :
    w.alike v = true := by
  induction v using Value.induction generalizing w with
  | leaf v l hl => exact (alike_iff_of_leaf ((alike_iff_of_leaf hl).mp h)).mpr hl
  | array id vs ih =>
    obtain ⟨j, ws, rfl, hvs⟩ := alike_array_iff.mp h
    have hback := forall₂_imp_of_mem (Q := fun a b => b.alike a = true) hvs fun a ha b hb hab =>
      ih a ha (hv.element ha) (hw.element hb) hab
    exact alike_array_iff.mpr ⟨id, vs, rfl, hback.flip⟩
  | hash id m ih =>
    obtain ⟨j, n, rfl⟩ := exists_of_alike_hash h
    have hkeys := (alike_hash_hash_iff hv.nodup_keys hw.nodup_keys).mp h
    refine (alike_hash_hash_iff hw.nodup_keys hv.nodup_keys).mpr fun key => ?_
    refine rel_imp (rel_flip (hkeys key)) fun b a hb ha hab => ?_
    have hmem := OrderedMap.mem_of_get? ha
    exact ih _ hmem (hv.entry hmem) (hw.entry (OrderedMap.mem_of_get? hb)) hab
  | returnSignal v ih =>
    obtain ⟨b, rfl, hb⟩ := alike_returnSignal_iff.mp h
    exact alike_returnSignal_iff.mpr ⟨v, rfl, ih hv.returned hw.returned hb⟩

theorem alike_comm (hv : v.IsBuilt) (hw : w.IsBuilt) : v.alike w = w.alike v :=
  Bool.eq_iff_iff.mpr ⟨alike_symm hv hw, alike_symm hw hv⟩

/-- Being alike is transitive. -/
theorem alike_trans (hu : u.IsBuilt) (hv : v.IsBuilt) (hw : w.IsBuilt) (huv : u.alike v = true)
    (hvw : v.alike w = true) : u.alike w = true := by
  -- Only the first value is taken apart; the parts of the others are met in step with its own.
  induction u using Value.induction generalizing v w with
  | leaf u l hl =>
    have hl' := (alike_iff_of_leaf hl).mp huv
    exact (alike_iff_of_leaf hl).mpr ((alike_iff_of_leaf hl').mp hvw)
  | array id us ih =>
    obtain ⟨j, vs, rfl, hus⟩ := alike_array_iff.mp huv
    obtain ⟨k, ws, rfl, hvs⟩ := alike_array_iff.mp hvw
    refine alike_array_iff.mpr ⟨k, ws, rfl, forall₂_trans_of_mem hus hvs ?_⟩
    exact fun a ha b hb c hc =>
      ih a ha (hu.element ha) (hv.element hb) (hw.element hc)
  | hash id l ih =>
    obtain ⟨j, m, rfl⟩ := exists_of_alike_hash huv
    obtain ⟨k, n, rfl⟩ := exists_of_alike_hash hvw
    have hlm := (alike_hash_hash_iff hu.nodup_keys hv.nodup_keys).mp huv
    have hmn := (alike_hash_hash_iff hv.nodup_keys hw.nodup_keys).mp hvw
    refine (alike_hash_hash_iff hu.nodup_keys hw.nodup_keys).mpr fun key => ?_
    refine rel_trans (hlm key) (hmn key) fun a b c ha hb hc => ?_
    have hmem := OrderedMap.mem_of_get? ha
    exact ih _ hmem (hu.entry hmem) (hv.entry (OrderedMap.mem_of_get? hb))
      (hw.entry (OrderedMap.mem_of_get? hc))
  | returnSignal u ih =>
    obtain ⟨b, rfl, hub⟩ := alike_returnSignal_iff.mp huv
    obtain ⟨c, rfl, hbc⟩ := alike_returnSignal_iff.mp hvw
    exact alike_returnSignal_iff.mpr ⟨c, rfl, ih hu.returned hv.returned hw.returned hub hbc⟩

end Equivalence

end Value

/-! ## Hashes in slots -/

theorem allM_of_forall_eq_ok {ε α : Type} {f : α → Except ε Bool} {g : α → Bool} {xs : List α}
    (h : ∀ x ∈ xs, f x = .ok (g x)) : xs.allM f = .ok (xs.all g) := by
  induction xs with
  | nil => rfl
  | cons x xs ih =>
    obtain ⟨hx, hxs⟩ := List.forall_mem_cons.mp h
    rw [List.allM_cons, hx, List.all_cons, ih hxs]
    cases g x <;> rfl

namespace SlotTable

variable [Hashable HashKey]

/-- Whether the entry of a slot has the value that another table has under the key. -/
def hasAlike (t u : SlotTable) (key : HashKey) (slot : Nat) : Except OutOfRange Bool := do
  let found ← u.get key
  match t.entries[slot]?, found with
  | none, _ => .error ⟨slot⟩
  | some entry, some b => .ok (b.alike entry.2)
  | some _, none => .ok false

/--
Whether two tables have the same contents, going through the index of the first as `walk` does.
-/
def alike (t u : SlotTable) (walk : List (HashKey × Nat)) : Except OutOfRange Bool :=
  if t.length = u.length then walk.allM fun e => t.hasAlike u e.1 e.2 else .ok false

variable {t u : SlotTable} {m n : HashEntries}

/--
Looking an entry up by its slot and comparing it is comparing what the two maps have under its key.
-/
theorem hasAlike_eq (ht : t.Represents m) (hu : u.Represents n) (hm : (OrderedMap.keys m).Nodup)
    (hn : (OrderedMap.keys n).Nodup) {key : HashKey} {slot : Nat}
    (hslot : t.index[key]? = some slot) :
    t.hasAlike u key slot = .ok ((OrderedMap.get? m key).any fun a =>
      (OrderedMap.get? n key).any fun b => b.2.alike a.2) := by
  obtain ⟨a, ha, hget⟩ := ht.exists_entry hm hslot
  unfold hasAlike
  rw [hu.get_eq hn, ha, hget]
  cases OrderedMap.get? n key <;> rfl

/-- The comparison misses no slot and compares what the two maps have under each key. -/
theorem Represents.exists_alike_eq (ht : t.Represents m) (hu : u.Represents n)
    (hm : (OrderedMap.keys m).Nodup) (hn : (OrderedMap.keys n).Nodup) {walk : List (HashKey × Nat)}
    (hwalk : walk.Perm t.index.toList) :
    ∃ r, t.alike u walk = .ok r ∧ (r = true ↔ ∀ key,
      Option.Rel (fun a b => b.2.alike a.2 = true) (OrderedMap.get? m key)
        (OrderedMap.get? n key)) := by
  have hslot : ∀ key slot, (key, slot) ∈ walk ↔ t.index[key]? = some slot := fun key slot => by
    rw [hwalk.mem_iff, Std.HashMap.mem_toList_iff_getElem?_eq_some]
  have hlength : t.length = u.length ↔ m.length = n.length := by
    rw [length, length, ht.size_eq, hu.size_eq]
  rw [← OrderedMap.rel_get?_iff hm hn, ← hlength]
  unfold alike
  by_cases hsame : t.length = u.length
  · rw [if_pos hsame, allM_of_forall_eq_ok fun e he =>
      hasAlike_eq ht hu hm hn ((hslot e.1 e.2).mp he)]
    refine ⟨_, rfl, ?_⟩
    simp only [List.all_eq_true, Option.any_eq_true, hsame, true_and]
    constructor
    · intro h e he
      obtain ⟨slot, hkey⟩ := List.mem_iff_getElem?.mp (List.mem_map_of_mem (f := Prod.fst) he)
      obtain ⟨a, ha, hb⟩ := h (e.1, slot) ((hslot _ _).mpr ((ht.index e.1 slot).mpr hkey))
      rw [(OrderedMap.get?_eq_some_iff hm).mpr he] at ha
      obtain rfl : e.2 = a := Option.some.inj ha
      exact hb
    · intro h e he
      obtain ⟨a, -, ha⟩ := ht.exists_entry hm ((hslot _ _).mp he)
      exact ⟨a, ha, h (e.1, a) (OrderedMap.mem_of_get? ha)⟩
  · exact ⟨false, if_neg hsame, by simp [hsame]⟩

end SlotTable

namespace Value

section Headline

variable [Hashable HashKey] {i j : Identity} {es fs : List (HashKey × Value × Value)}

/-- Two hashes are alike if the tables of their insertions have the same contents. -/
theorem alike_ofList_eq (hes : (hash i (OrderedMap.ofList es)).IsBuilt)
    (hfs : (hash j (OrderedMap.ofList fs)).IsBuilt) :
    ∃ t t', SlotTable.ofList es = .ok t ∧ SlotTable.ofList fs = .ok t' ∧
      ∀ walk, walk.Perm t.index.toList → t.alike t' walk =
        .ok ((hash i (OrderedMap.ofList es)).alike (hash j (OrderedMap.ofList fs))) := by
  obtain ⟨t, ht, hm⟩ := SlotTable.exists_ofList es
  obtain ⟨t', ht', hn⟩ := SlotTable.exists_ofList fs
  refine ⟨t, t', ht, ht', fun walk hwalk => ?_⟩
  obtain ⟨r, hr, hiff⟩ := hm.exists_alike_eq hn hes.nodup_keys hfs.nodup_keys hwalk
  rw [hr]
  refine congrArg Except.ok (Bool.eq_iff_iff.mpr ?_)
  rw [hiff, alike_hash_hash_iff hes.nodup_keys hfs.nodup_keys]
  refine forall_congr' fun key => ?_
  -- The table asks whether the second value is alike the first.
  have hbuilt : ∀ a b, OrderedMap.get? (OrderedMap.ofList es) key = some a →
      OrderedMap.get? (OrderedMap.ofList fs) key = some b → a.2.IsBuilt ∧ b.2.IsBuilt :=
    fun a b ha hb => ⟨hes.entry (OrderedMap.mem_of_get? ha), hfs.entry (OrderedMap.mem_of_get? hb)⟩
  constructor
  · exact fun h => rel_imp h fun a b ha hb hab =>
      alike_symm (hbuilt a b ha hb).2 (hbuilt a b ha hb).1 hab
  · exact fun h => rel_imp h fun a b ha hb hab =>
      alike_symm (hbuilt a b ha hb).1 (hbuilt a b ha hb).2 hab

end Headline

/--
Among values whose hashes are built by insertion, being alike is reflexive, symmetric and
transitive. Hashes are alike exactly if they hold the same keys and, under each of them, values that
are alike, where the value under a key is the one inserted last. The tables of the insertions, with
a comparison that goes through the index of the first in any order, say the same.
-/
theorem alike_equivalence [Hashable HashKey] {u v w : Value} (hu : u.IsBuilt) (hv : v.IsBuilt)
    (hw : w.IsBuilt) :
    u.alike u = true ∧ u.alike v = v.alike u ∧
      (u.alike v = true → v.alike w = true → u.alike w = true) ∧
      ∀ i j es fs, u = hash i (OrderedMap.ofList es) → v = hash j (OrderedMap.ofList fs) →
        (u.alike v = true ↔ ∀ key, Option.Rel (fun a b => a.2.alike b.2 = true)
          (OrderedMap.last? es key) (OrderedMap.last? fs key)) ∧
        ∃ t t', SlotTable.ofList es = .ok t ∧ SlotTable.ofList fs = .ok t' ∧
          ∀ walk, walk.Perm t.index.toList → t.alike t' walk = .ok (u.alike v) := by
  refine ⟨alike_refl hu, alike_comm hu hv, alike_trans hu hv hw, ?_⟩
  rintro i j es fs rfl rfl
  refine ⟨?_, alike_ofList_eq hu hv⟩
  rw [alike_hash_hash_iff hu.nodup_keys hv.nodup_keys]
  refine forall_congr' fun key => ?_
  rw [AlikeUnder, OrderedMap.get?_ofList, OrderedMap.get?_ofList]

/-- Three ways to build a hash of two keys, one of them with a value that is replaced. -/
theorem alike_equivalence_hashes :
    let a : HashKey × Value × Value := (.string "a", .string "a", .array ⟨0⟩ [.integer 1])
    let a' : HashKey × Value × Value := (.string "a", .string "a", .array ⟨1⟩ [.integer 1])
    let b : HashKey × Value × Value := (.string "b", .string "b", .integer 2)
    let old : HashKey × Value × Value := (.string "b", .string "b", .null)
    let u := hash ⟨2⟩ (OrderedMap.ofList [a, b])
    let v := hash ⟨3⟩ (OrderedMap.ofList [b, a'])
    let w := hash ⟨4⟩ (OrderedMap.ofList [old, a, b])
    u.IsBuilt ∧ v.IsBuilt ∧ w.IsBuilt ∧ u.alike v = true ∧ v.alike w = true ∧
      u.alike w = true := by
  intro a a' b old u v w
  have hparts : ∀ e ∈ [a, a', b, old], e.2.1.IsBuilt ∧ e.2.2.IsBuilt := by
    have harray : ∀ id, (array id [.integer 1]).IsBuilt := fun id =>
      isBuilt_array (List.forall_mem_singleton.mpr (isBuilt_of_leaf rfl))
    simp only [List.forall_mem_cons]
    exact ⟨⟨isBuilt_of_leaf rfl, harray _⟩, ⟨isBuilt_of_leaf rfl, harray _⟩,
      ⟨isBuilt_of_leaf rfl, isBuilt_of_leaf rfl⟩, ⟨isBuilt_of_leaf rfl, isBuilt_of_leaf rfl⟩,
      List.forall_mem_nil _⟩
  have hbuilt : ∀ id es, es ⊆ [a, a', b, old] → (hash id (OrderedMap.ofList es)).IsBuilt :=
    fun id es h => isBuilt_hash fun e he => hparts e (h he)
  have hu : u.IsBuilt := hbuilt _ _ (by simp)
  have hv : v.IsBuilt := hbuilt _ _ (by simp)
  have hw : w.IsBuilt := hbuilt _ _ (by simp)
  have huv : u.alike v = true := by decide +kernel
  have hvw : v.alike w = true := by decide +kernel
  obtain ⟨-, -, htrans, -⟩ := @alike_equivalence ⟨fun _ => 0⟩ u v w hu hv hw
  exact ⟨hu, hv, hw, huv, hvw, htrans huv hvw⟩

end Value

end Ember
