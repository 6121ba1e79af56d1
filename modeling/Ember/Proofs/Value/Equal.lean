import Ember.Proofs.Identity.Session
import Ember.Proofs.Value.Alike

/-!
# One equality

The language compares values in several places: with `==` and `!=`, where integers and strings take
ways of their own, and by the keys of a hash. `Value.alike` compares them a second time, by their
contents. All of these agree (`Value.equalities_agree`).

What equality looks at is the comparand of a value (`Value.comparand?`): the value itself for
scalars, the name of a builtin, the identity of an array, a hash or a function. Signals have none.
Two values are equal exactly if they have the same comparand (`Value.equal_iff`), so equality is an
equivalence on all values but signals.

## Identities

An identity stands for one value. Nothing in the form of two values says so, but it is true of all
that are there in a session (`Moment.Before.together`).
-/

namespace Ember

/-- The value that makes a key. -/
def HashKey.toValue : HashKey → Value
  | integer n => .integer n
  | boolean b => .boolean b
  | string s => .string s

namespace Value

/-! ## What equality looks at -/

/-- What two values have in common when they are equal. -/
inductive Comparand where
  | key (key : HashKey)
  | identity (type : ValueType) (id : Identity)
  | builtin (b : Builtin)
  | null

/-- What equality looks at in a value. -/
def comparand? : Value → Option Comparand
  | integer n => some (.key (.integer n))
  | boolean b => some (.key (.boolean b))
  | string s => some (.key (.string s))
  | array id _ => some (.identity .array id)
  | hash id _ => some (.identity .hash id)
  | function id _ _ => some (.identity .function id)
  | builtin b => some (.builtin b)
  | null => some .null
  | returnSignal _ | error _ => none

variable {u v w : Value} {key : HashKey}

theorem comparand?_isSome : v.comparand?.isSome = !v.isSignal := by
  cases v <;> rfl

theorem equal_iff : v.equal w = true ↔ ∃ c, v.comparand? = some c ∧ w.comparand? = some c := by
  cases v <;> cases w <;> simp [equal, comparand?] <;> exact eq_comm

theorem equal_comm : v.equal w = w.equal v := by
  rw [Bool.eq_iff_iff, equal_iff, equal_iff]
  exact exists_congr fun _ => and_comm

theorem equal_trans (huv : u.equal v = true) (hvw : v.equal w = true) : u.equal w = true := by
  obtain ⟨c, hu, hv⟩ := equal_iff.mp huv
  obtain ⟨d, hv', hw⟩ := equal_iff.mp hvw
  obtain rfl : c = d := Option.some.inj (hv.symm.trans hv')
  exact equal_iff.mpr ⟨c, hu, hw⟩

theorem equal_eq_false_of_isSignal (h : v.isSignal = true ∨ w.isSignal = true) :
    v.equal w = false := by
  have hcomparand : ∀ {u : Value}, u.isSignal = true → u.comparand? = none := fun {u} hu => by
    rw [← Option.not_isSome_iff_eq_none, comparand?_isSome, hu]
    exact nofun
  rw [← Bool.not_eq_true, equal_iff]
  rintro ⟨c, hv, hw⟩
  rcases h with h | h
  · exact Option.some_ne_none c (hv.symm.trans (hcomparand h))
  · exact Option.some_ne_none c (hw.symm.trans (hcomparand h))

/-! ## Keys -/

theorem hashKey?_eq_some_iff : v.hashKey? = some key ↔ v = key.toValue := by
  cases v <;> cases key <;> simp [hashKey?, HashKey.toValue]

theorem hashKey?_toValue (key : HashKey) : key.toValue.hashKey? = some key :=
  hashKey?_eq_some_iff.mpr rfl

theorem comparand?_toValue (key : HashKey) : key.toValue.comparand? = some (.key key) := by
  cases key <;> rfl

theorem comparand?_eq_key_iff : v.comparand? = some (.key key) ↔ v.hashKey? = some key := by
  cases v <;> simp [comparand?, hashKey?]

/-- A key is equal to the values that make it and to no others. -/
theorem toValue_equal_iff : key.toValue.equal v = true ↔ v.hashKey? = some key := by
  rw [equal_iff, comparand?_toValue, ← comparand?_eq_key_iff]
  simp

/-- Two values that make keys are equal exactly if they make the same. -/
theorem equal_iff_hashKey? {key' : HashKey} (hv : v.hashKey? = some key)
    (hw : w.hashKey? = some key') : v.equal w = true ↔ key = key' := by
  rw [hashKey?_eq_some_iff.mp hv, toValue_equal_iff, hw, Option.some.injEq, eq_comm]

/-! ## Contents -/

/-- One identity is not that of two values. -/
def Together (v w : Value) : Prop :=
  ∀ id, v.identity? = some id → w.identity? = some id → v = w

/-- Equal values have the same contents. -/
theorem alike_of_equal (hv : v.IsBuilt) (hsame : v.Together w) (h : v.equal w = true) :
    v.alike w = true := by
  have hid := identity?_of_equal h
  cases hv' : v.identity? with
  | some id =>
    obtain rfl := hsame id hv' (hid.symm.trans hv')
    exact alike_refl hv
  | none => cases v <;> cases w <;> simp_all [equal, alike, identity?]

/-! ## Operators -/

/-- No operator accepts a signal. -/
theorem evalBinary_of_isSignal (h : v.isSignal = true ∨ w.isSignal = true) (op : BinaryOp) :
    evalBinary v op w = .error (.unknownBinary v.type op w.type) := by
  simp [evalBinary, h]

theorem evalUnary_of_isSignal (h : v.isSignal = true) (op : UnaryOp) :
    evalUnary op v = .error (.unknownUnary op v.type) := by
  simp [evalUnary, h]

theorem evalBinary_notEq (hv : v.isSignal = false) (hw : w.isSignal = false) :
    evalBinary v .notEq w = .ok (.boolean (!v.equal w)) := by
  unfold evalBinary
  simp only [hv, hw, Bool.or_false, Bool.false_eq_true, if_false]
  split <;> rfl

/-- The operator says that two values are equal if they are; of signals it says nothing. -/
theorem evalBinary_eq_true_iff : evalBinary v .eq w = .ok (.boolean true) ↔ v.equal w = true := by
  by_cases h : v.isSignal = true ∨ w.isSignal = true
  · rw [evalBinary_of_isSignal h, equal_eq_false_of_isSignal h]
    exact ⟨nofun, nofun⟩
  · rw [not_or, Bool.not_eq_true, Bool.not_eq_true] at h
    simp [evalBinary_eq h.1 h.2]

/-! ## Element access -/

section Access

variable {es : List (HashKey × Value × Value)}

/-- The value that was inserted last under a key that is equal to `index`. -/
def lastEqual? (es : List (HashKey × Value × Value)) (index : Value) : Option Value :=
  (es.reverse.find? fun e => e.1.toValue.equal index).map fun e => e.2.2

/-- There is such a value exactly if some inserted key is equal to `index`. -/
theorem lastEqual?_isSome_iff : (lastEqual? es v).isSome = true ↔
    ∃ e ∈ es, evalBinary e.1.toValue .eq v = .ok (.boolean true) := by
  simp [lastEqual?, evalBinary_eq_true_iff]

/-- What was inserted last under the key of `index`. -/
theorem lastEqual?_eq (hv : v.hashKey? = some key) :
    lastEqual? es v = (OrderedMap.last? es key).map Prod.snd := by
  have hkeys : ∀ e : HashKey × Value × Value, e.1.toValue.equal v = decide (e.1 = key) := by
    intro e
    rw [Bool.eq_iff_iff, decide_eq_true_eq, toValue_equal_iff, hv, Option.some.injEq, eq_comm]
  simp only [lastEqual?, hkeys, OrderedMap.last?, Option.map_map]
  rfl

/-- An index that makes no key is equal to no key that was inserted. -/
theorem lastEqual?_eq_none (hv : v.hashKey? = none) : lastEqual? es v = none := by
  simp [lastEqual?, toValue_equal_iff, hv]

/-- Indexing a hash gives what was inserted last under an equal key, or `null`. -/
theorem evalIndex_ofList (id : Identity) (hv : v.hashKey? = some key) :
    evalIndex (hash id (OrderedMap.ofList es)) v = .ok ((lastEqual? es v).getD .null) := by
  simp only [evalIndex, hv, lastEqual?_eq hv, OrderedMap.get?_ofList]

end Access

end Value

/-- The values of a session are together, also when one of them is there later than the other. -/
theorem Moment.Before.together {a b c : Moment} (ha : a.Opens) (hab : a.Before b)
    (hbc : b.Before c) {v w : Value} (hv : b.Has v) (hw : c.Has w) : v.Together w :=
  fun _ hid hid' => ((distinct_of_before ha hab).continues hbc).eq_of_identity? hv hw hid hid'

namespace Value

/--
The operators `==` and `!=` say of two values that are not signals what equality says. Equality is
reflexive on such values, symmetric and transitive. Where the hashes of a value are built by
insertion, the values equal to it have the same contents. Values that make keys are equal exactly if
they make the same key; so indexing a hash, also as a table, gives what was inserted last under a
key that is equal to the index, and it finds an entry exactly if there was such a key. Every
operator refuses a signal. And values of one session never share an identity unless they are the
same.
-/
theorem equalities_agree [Hashable HashKey] {v w : Value} (hv : v.IsBuilt) (hsame : v.Together w) :
    (v.isSignal = false → w.isSignal = false →
        evalBinary v .eq w = .ok (.boolean (v.equal w)) ∧
        evalBinary v .notEq w = .ok (.boolean (!v.equal w))) ∧
      (v.isSignal = false → v.equal v = true) ∧
      v.equal w = w.equal v ∧
      (∀ u : Value, u.equal v = true → v.equal w = true → u.equal w = true) ∧
      (v.equal w = true → v.alike w = true) ∧
      (∀ key key', v.hashKey? = some key → w.hashKey? = some key' →
        (v.equal w = true ↔ key = key')) ∧
      (∀ (id : Identity) (es : List (HashKey × Value × Value)),
        ((lastEqual? es v).isSome = true ↔
          ∃ e ∈ es, evalBinary e.1.toValue .eq v = .ok (.boolean true)) ∧
        (∀ e ∈ es, e.2.1.hashKey? = some e.1 → e.2.1 = e.1.toValue) ∧
        (∀ key, v.hashKey? = some key →
          evalIndex (hash id (OrderedMap.ofList es)) v = .ok ((lastEqual? es v).getD .null) ∧
          ∃ t, SlotTable.ofList es = .ok t ∧ t.get key = .ok (lastEqual? es v)) ∧
        (v.hashKey? = none → lastEqual? es v = none ∧
          evalIndex (hash id (OrderedMap.ofList es)) v = .error (.badHashKey v.type))) ∧
      (v.isSignal = true ∨ w.isSignal = true →
        ∀ op, evalBinary v op w = .error (.unknownBinary v.type op w.type)) ∧
      (v.isSignal = true → ∀ op, evalUnary op v = .error (.unknownUnary op v.type)) ∧
      ∀ a b c : Moment, a.Opens → a.Before b → b.Before c →
        ∀ x y, b.Has x → c.Has y → x.Together y := by
  refine ⟨fun hv hw => ⟨evalBinary_eq hv hw, evalBinary_notEq hv hw⟩, equal_self, equal_comm,
    fun u => equal_trans, alike_of_equal hv hsame, fun key key' => equal_iff_hashKey?,
    fun id es => ⟨lastEqual?_isSome_iff, fun e _ => hashKey?_eq_some_iff.mp, ?_, ?_⟩,
    evalBinary_of_isSignal, evalUnary_of_isSignal,
    fun a b c ha hab hbc x y => hab.together ha hbc⟩
  · intro key hkey
    obtain ⟨t, ht, hrepresents⟩ := SlotTable.exists_ofList es
    refine ⟨evalIndex_ofList id hkey, t, ht, ?_⟩
    rw [hrepresents.get_eq (OrderedMap.nodup_keys_ofList es), OrderedMap.get?_ofList,
      lastEqual?_eq hkey]
  · intro hnone
    refine ⟨lastEqual?_eq_none hnone, ?_⟩
    simp only [evalIndex, hnone]

/-- A hash in which a key was inserted twice, compared with itself and indexed with that key. -/
theorem equalities_agree_hash :
    let es : List (HashKey × Value × Value) :=
      [(.string "a", .string "a", .integer 1), (.string "a", .string "a", .integer 2)]
    let h := hash ⟨0⟩ (OrderedMap.ofList es)
    h.IsBuilt ∧ h.Together h ∧ evalBinary h .eq h = .ok (.boolean true) ∧ h.alike h = true ∧
      evalIndex h (.string "a") = .ok (.integer 2) := by
  intro es h
  have hbuilt : h.IsBuilt := by
    refine isBuilt_hash ?_
    simp only [es, List.forall_mem_cons]
    exact ⟨⟨isBuilt_of_leaf rfl, isBuilt_of_leaf rfl⟩, ⟨isBuilt_of_leaf rfl, isBuilt_of_leaf rfl⟩,
      List.forall_mem_nil _⟩
  have htogether : h.Together h := fun _ _ _ => rfl
  let _ : Hashable HashKey := ⟨fun _ => 0⟩
  obtain ⟨hop, hself, -, -, halike, -⟩ := equalities_agree hbuilt htogether
  obtain ⟨-, -, -, -, -, -, hindex, -⟩ :=
    equalities_agree (v := .string "a") (w := h) (isBuilt_of_leaf rfl) nofun
  have hequal : h.equal h = true := hself rfl
  refine ⟨hbuilt, htogether, hequal ▸ (hop rfl rfl).1, halike hequal, ?_⟩
  obtain ⟨-, -, hfound, -⟩ := hindex ⟨0⟩ es
  exact (hfound (.string "a") rfl).1

end Value

end Ember
