import Ember.Proofs.Eval.Bindings
import Ember.Proofs.Eval.Signals
import Ember.Proofs.Tree.Tokens
import Mathlib.Data.List.Forall2

/-!
# The same values in two heaps

Scopes are known by their places and arrays, hashes and functions by their identities, but a program
finds out no more about a place or an identity than whether it is another one. So two heaps that
came about in different ways can hold the same. A `Pairing` says which scopes and which identities
of the one stand for which of the other.

Values that correspond under a pairing (`Value.Corresponds`) cannot be told apart, whatever the
literals of the functions in them: operators make the same of them (`evalBinary_congr`,
`evalUnary_congr`, `evalIndex_congr`). If these literals have the same text, then so do the values
(`Value.Corresponds.render`). Values are the same (`Value.Same`) if the literals are.
-/

namespace Ember

/-- Which scopes and identities of one heap stand for which of another, one for one. -/
structure Pairing where
  scope : ScopeId → ScopeId → Prop
  identity : Identity → Identity → Prop
  scope_iff : ∀ {i i' j j'}, scope i i' → scope j j' → (i = j ↔ i' = j')
  identity_iff : ∀ {i i' j j'}, identity i i' → identity j j' → (i = j ↔ i' = j')

/-- Every scope and every identity stands for itself. -/
def Pairing.refl : Pairing where
  scope i j := i = j
  identity i j := i = j
  scope_iff := by
    rintro i _ j _ rfl rfl
    exact Iff.rfl
  identity_iff := by
    rintro i _ j _ rfl rfl
    exact Iff.rfl

/-! ## Values -/

mutual

/--
The values are built alike, from scopes and identities that stand for each other. The functions in
them come from literals that are `like` each other.
-/
inductive Value.Corresponds (ρ : Pairing) (like : FunctionLiteral → FunctionLiteral → Prop) :
    Value → Value → Prop
  | plain {v : Value} (h : v.isPlain = true) : Value.Corresponds ρ like v v
  | array {i j : Identity} {vs ws : List Value} (hid : ρ.identity i j)
      (h : List.Forall₂ (Value.Corresponds ρ like) vs ws) :
      Value.Corresponds ρ like (.array i vs) (.array j ws)
  | hash {i j : Identity} {es fs : HashEntries} (hid : ρ.identity i j)
      (h : List.Forall₂ (EntryCorresponds ρ like) es fs) :
      Value.Corresponds ρ like (.hash i es) (.hash j fs)
  | function {i j : Identity} {f g : FunctionLiteral} {s t : ScopeId} (hid : ρ.identity i j)
      (hlike : like f g) (hscope : ρ.scope s t) :
      Value.Corresponds ρ like (.function i f s) (.function j g t)
  | returnSignal {v w : Value} (h : Value.Corresponds ρ like v w) :
      Value.Corresponds ρ like (.returnSignal v) (.returnSignal w)
  | error (message : String) : Value.Corresponds ρ like (.error message) (.error message)

/-- The entries have the same key, and values under it that correspond. -/
inductive EntryCorresponds (ρ : Pairing) (like : FunctionLiteral → FunctionLiteral → Prop) :
    HashKey × Value × Value → HashKey × Value × Value → Prop
  | intro (key : HashKey) {u u' v v' : Value} (hkey : Value.Corresponds ρ like u u')
      (hvalue : Value.Corresponds ρ like v v') : EntryCorresponds ρ like (key, u, v) (key, u', v')

end

/-- The literals are the same, and of the shape `k`. -/
def FunctionLiteral.Same (k : Shape) (f g : FunctionLiteral) : Prop := f.HasShape k ∧ g = f

/-- The values correspond, with the same literals of the shape `k` in their functions. -/
abbrev Value.Same (ρ : Pairing) (k : Shape) : Value → Value → Prop :=
  Value.Corresponds ρ (FunctionLiteral.Same k)

section Values

variable {ρ σ : Pairing} {like like' : FunctionLiteral → FunctionLiteral → Prop}
  {v v' w w' : Value}

namespace Value.Corresponds

theorem isPlain (h : v.Corresponds ρ like v') : v'.isPlain = v.isPlain := by
  cases h <;> rfl

theorem eq_of_isPlain (h : v.Corresponds ρ like v') (hv : v.isPlain = true) : v' = v := by
  cases h with
  | plain => rfl
  | _ => cases hv

theorem type (h : v.Corresponds ρ like v') : v'.type = v.type := by
  cases h <;> rfl

theorem isTruthy (h : v.Corresponds ρ like v') : v'.isTruthy = v.isTruthy := by
  cases h <;> rfl

theorem isSignal (h : v.Corresponds ρ like v') : v'.isSignal = v.isSignal := by
  cases h <;> rfl

theorem hashKey? (h : v.Corresponds ρ like v') : v'.hashKey? = v.hashKey? := by
  cases h <;> rfl

/-- Values that correspond are equal to values that correspond. -/
theorem equal (hv : v.Corresponds ρ like v') (hw : w.Corresponds ρ like w') :
    v'.equal w' = v.equal w := by
  have hidentity : ∀ {i i' j j'}, ρ.identity i i' → ρ.identity j j' → (i' == j') = (i == j) := by
    intro i i' j j' hi hj
    rw [Bool.eq_iff_iff, beq_iff_eq, beq_iff_eq]
    exact (ρ.identity_iff hi hj).symm
  cases hv with
  | plain hv =>
    cases hw with
    | plain hw => rfl
    | _ => cases v <;> first | rfl | cases hv
  | array hi _ =>
    cases hw with
    | array hj _ => exact hidentity hi hj
    | plain hw => cases w <;> first | rfl | cases hw
    | _ => rfl
  | hash hi _ =>
    cases hw with
    | hash hj _ => exact hidentity hi hj
    | plain hw => cases w <;> first | rfl | cases hw
    | _ => rfl
  | function hi _ _ =>
    cases hw with
    | function hj _ _ => exact hidentity hi hj
    | plain hw => cases w <;> first | rfl | cases hw
    | _ => rfl
  | returnSignal _ | error _ => cases w <;> cases w' <;> rfl

end Value.Corresponds

/-! ### Lists and options -/

/-- What stands at a place in both lists is the same. -/
theorem rel_getElem? {α β : Type} {R : α → β → Prop} {xs : List α} {ys : List β}
    (h : List.Forall₂ R xs ys) (n : Nat) : Option.Rel R xs[n]? ys[n]? := by
  induction h generalizing n with
  | nil => exact .none
  | cons hxy _ ih =>
    cases n with
    | zero => exact .some hxy
    | succ n => exact ih n

theorem rel_head? {α β : Type} {R : α → β → Prop} {xs : List α} {ys : List β}
    (h : List.Forall₂ R xs ys) : Option.Rel R xs.head? ys.head? := by
  rw [List.head?_eq_getElem?, List.head?_eq_getElem?]
  exact rel_getElem? h 0

theorem rel_getLast? {α β : Type} {R : α → β → Prop} {xs : List α} {ys : List β}
    (h : List.Forall₂ R xs ys) : Option.Rel R xs.getLast? ys.getLast? := by
  rw [List.getLast?_eq_getElem?, List.getLast?_eq_getElem?, h.length_eq]
  exact rel_getElem? h _

theorem rel_imp {α β : Type} {R S : α → β → Prop} {o : Option α} {p : Option β}
    (h : Option.Rel R o p) (himp : ∀ a b, o = some a → p = some b → R a b → S a b) :
    Option.Rel S o p := by
  cases h with
  | none => exact .none
  | some h => exact .some (himp _ _ rfl rfl h)

theorem Value.corresponds_getD {o o' : Option Value}
    (h : Option.Rel (Value.Corresponds ρ like) o o') :
    (o.getD .null).Corresponds ρ like (o'.getD .null) := by
  cases h with
  | none => exact .plain rfl
  | some h => exact h

/-- What is stored under a key corresponds. -/
theorem rel_get? {es fs : HashEntries} (h : List.Forall₂ (EntryCorresponds ρ like) es fs)
    (key : HashKey) :
    Option.Rel (Value.Corresponds ρ like) ((OrderedMap.get? es key).map Prod.snd)
      ((OrderedMap.get? fs key).map Prod.snd) := by
  induction h with
  | nil => exact .none
  | @cons e f es fs hentry _ ih =>
    obtain ⟨other, _, hvalue⟩ := hentry
    rw [OrderedMap.get?, OrderedMap.get?]
    split
    · exact .some hvalue
    · exact ih

theorem forall₂_insert {es fs : HashEntries} (h : List.Forall₂ (EntryCorresponds ρ like) es fs)
    (key : HashKey) (hv : v.Corresponds ρ like v') (hw : w.Corresponds ρ like w') :
    List.Forall₂ (EntryCorresponds ρ like) (OrderedMap.insert key (v, w) es)
      (OrderedMap.insert key (v', w') fs) := by
  induction h with
  | nil => exact .cons (.intro key hv hw) .nil
  | @cons e f es fs hentry hrest ih =>
    obtain ⟨other, hkey, hvalue⟩ := hentry
    rw [OrderedMap.insert, OrderedMap.insert]
    split
    · exact .cons (.intro key hv hw) hrest
    · exact .cons (.intro other hkey hvalue) ih

/-! ### Operators -/

/-- Without two integers or two strings, an operator looks at types and at equality only. -/
theorem evalBinary_of_not_isPlain (h : (v.isPlain && w.isPlain) = false) (op : BinaryOp) :
    evalBinary v op w =
      if v.isSignal || w.isSignal then .error (.unknownBinary v.type op w.type)
      else
        match op with
        | .eq => .ok (.boolean (v.equal w))
        | .notEq => .ok (.boolean (!v.equal w))
        | _ =>
          if v.type ≠ w.type then .error (.typeMismatch v.type op w.type)
          else .error (.unknownBinary v.type op w.type) := by
  cases v <;> cases w <;> first | rfl | cases h

/-- An operator between operands makes the same of operands that correspond. -/
theorem evalBinary_congr (hv : v.Corresponds ρ like v') (op : BinaryOp)
    (hw : w.Corresponds ρ like w') : evalBinary v' op w' = evalBinary v op w := by
  cases hplain : v.isPlain && w.isPlain with
  | true =>
    obtain ⟨hvplain, hwplain⟩ := Bool.and_eq_true_iff.mp hplain
    rw [hv.eq_of_isPlain hvplain, hw.eq_of_isPlain hwplain]
  | false =>
    have hplain' : (v'.isPlain && w'.isPlain) = false := by rw [hv.isPlain, hw.isPlain, hplain]
    rw [evalBinary_of_not_isPlain hplain, evalBinary_of_not_isPlain hplain', hv.isSignal,
      hw.isSignal, hv.type, hw.type, hv.equal hw]

theorem evalUnary_congr (op : UnaryOp) (hv : v.Corresponds ρ like v') :
    evalUnary op v' = evalUnary op v := by
  cases hv with
  | plain _ => rfl
  | _ => cases op <;> rfl

/-- Both results are answers of which `post` holds, or they are the same error. -/
inductive Agree {ε α β : Type} (post : α → β → Prop) : Except ε α → Except ε β → Prop
  | ok {a : α} {b : β} (h : post a b) : Agree post (.ok a) (.ok b)
  | error (e : ε) : Agree post (.error e) (.error e)

/-- A result that is a value without parts is the same as itself. -/
theorem agree_of_isPlain {r : Except RuntimeError Value} (h : ∀ v, r = .ok v → v.isPlain = true) :
    Agree (Value.Corresponds ρ like) r r := by
  cases r with
  | ok v => exact .ok (.plain (h v rfl))
  | error e => exact .error e

/-- Under indices that correspond there is what corresponds, or the same error. -/
theorem evalIndex_congr (hv : v.Corresponds ρ like v') (hw : w.Corresponds ρ like w') :
    Agree (Value.Corresponds ρ like) (evalIndex v w) (evalIndex v' w') := by
  cases hv with
  | array hid h =>
    cases hw with
    | @plain w hplain =>
      cases w with
      | integer n =>
        refine .ok ?_
        split
        · exact .plain rfl
        · exact Value.corresponds_getD (rel_getElem? h _)
      | _ => exact .error _
    | _ => exact .error _
  | hash hid h =>
    unfold evalIndex
    simp only [hw.hashKey?, hw.type]
    split
    · exact .ok (Value.corresponds_getD (rel_get? h _))
    · exact .error _
  | plain hplain => cases v <;> first | exact .error _ | cases hplain
  | _ => exact .error _

/-! ### Texts -/

mutual

/-- Values that correspond have the same text if the literals in them have. -/
theorem Value.Corresponds.render (hlike : ∀ {f g}, like f g → g.render = f.render) :
    ∀ {v v' : Value}, v.Corresponds ρ like v' → v'.render = v.render
  | _, _, .plain _ | _, _, .error _ => rfl
  | _, _, .function _ h _ => hlike h
  | .array _ vs, _, .array _ h =>
    congrArg (fun t => "[" ++ t ++ "]") (renderElements_congr hlike vs h)
  | .hash _ es, _, .hash _ h =>
    congrArg (fun t => "\x7b" ++ t ++ "\x7d") (renderEntries_congr hlike es h)
  | .returnSignal _, _, .returnSignal h => h.render hlike

theorem renderElements_congr (hlike : ∀ {f g}, like f g → g.render = f.render) :
    ∀ (vs : List Value) {ws : List Value}, List.Forall₂ (Value.Corresponds ρ like) vs ws →
      Value.renderElements ws = Value.renderElements vs
  | [], _, .nil => rfl
  | [_], _, .cons h .nil => h.render hlike
  | u :: v :: vs, u' :: v' :: ws, .cons h (.cons h' hs) => by
    have hrest := renderElements_congr hlike (v :: vs) (.cons h' hs)
    show u'.render ++ ", " ++ Value.renderElements (v' :: ws) =
      u.render ++ ", " ++ Value.renderElements (v :: vs)
    rw [h.render hlike, hrest]

theorem renderEntries_congr (hlike : ∀ {f g}, like f g → g.render = f.render) :
    ∀ (es : HashEntries) {fs : HashEntries}, List.Forall₂ (EntryCorresponds ρ like) es fs →
      Value.renderEntries fs = Value.renderEntries es
  | [], _, .nil => rfl
  | [_], _, .cons (.intro _ hkey hvalue) .nil => by
    rw [Value.renderEntries, Value.renderEntries, hkey.render hlike, hvalue.render hlike]
  | (_, u, v) :: e :: es, (_, u', v') :: e' :: fs, .cons (.intro _ hkey hvalue) (.cons h hs) => by
    have hrest := renderEntries_congr hlike (e :: es) (.cons h hs)
    show u'.render ++ ": " ++ v'.render ++ ", " ++ Value.renderEntries (e' :: fs) =
      u.render ++ ": " ++ v.render ++ ", " ++ Value.renderEntries (e :: es)
    rw [hkey.render hlike, hvalue.render hlike, hrest]

end

/-! ### Another pairing -/

variable (ρ σ like like') in
/-- The functions in the value have scopes that stand for each other under the pairing `σ` too. -/
def Value.Carries (v : Value) : Prop :=
  ∀ i f s g t, (Value.function i f s).Part v → ρ.scope s t → like f g →
    σ.scope s t ∧ like' f g

mutual

/-- Values still correspond under a pairing that has the scopes of the functions in them. -/
theorem Value.Corresponds.transfer (hid : ∀ {i j}, ρ.identity i j → σ.identity i j) :
    ∀ {v v' : Value}, v.Corresponds ρ like v' → v.Carries ρ σ like like' →
      v.Corresponds σ like' v'
  | _, _, .plain h, _ => .plain h
  | _, _, .error _, _ => .error _
  | .function i f s, .function _ g t, .function hi hlike hscope, hcarries =>
    have ⟨hscope, hlike⟩ := hcarries i f s g t (.whole _) hscope hlike
    .function (hid hi) hlike hscope
  | .array _ vs, _, .array hi h, hcarries =>
    .array (hid hi) (transferElements hid vs h fun _ hv i f s g t hw =>
      hcarries i f s g t (.element hv hw))
  | .hash _ es, _, .hash hi h, hcarries =>
    .hash (hid hi) (transferEntries hid es h fun _ _ _ he =>
      ⟨fun i f s g t hw => hcarries i f s g t (.key he hw),
        fun i f s g t hw => hcarries i f s g t (.entry he hw)⟩)
  | .returnSignal _, _, .returnSignal h, hcarries =>
    .returnSignal (h.transfer hid fun i f s g t hw => hcarries i f s g t (.returned hw))

theorem transferElements (hid : ∀ {i j}, ρ.identity i j → σ.identity i j) :
    ∀ (vs : List Value) {ws : List Value}, List.Forall₂ (Value.Corresponds ρ like) vs ws →
      (∀ v ∈ vs, v.Carries ρ σ like like') → List.Forall₂ (Value.Corresponds σ like') vs ws
  | [], _, .nil, _ => .nil
  | _ :: vs, _, .cons h hs, hcarries =>
    .cons (h.transfer hid (hcarries _ List.mem_cons_self))
      (transferElements hid vs hs fun v hv => hcarries v (List.mem_cons_of_mem _ hv))

theorem transferEntries (hid : ∀ {i j}, ρ.identity i j → σ.identity i j) :
    ∀ (es : HashEntries) {fs : HashEntries}, List.Forall₂ (EntryCorresponds ρ like) es fs →
      (∀ key u v, (key, u, v) ∈ es → u.Carries ρ σ like like' ∧ v.Carries ρ σ like like') →
      List.Forall₂ (EntryCorresponds σ like') es fs
  | [], _, .nil, _ => .nil
  | (_, u, v) :: es, _, .cons (.intro key hkey hvalue) hs, hcarries =>
    have ⟨hu, hv⟩ := hcarries key u v List.mem_cons_self
    .cons (.intro key (hkey.transfer hid hu) (hvalue.transfer hid hv))
      (transferEntries hid es hs fun key u v he => hcarries key u v (List.mem_cons_of_mem _ he))

end

/-! ### Everything standing for itself -/

mutual

/-- The value with other tokens in the literals of its functions. -/
def Value.mapTokens (f : Token → Token) : Value → Value
  | .array id elements => .array id (mapTokensElements f elements)
  | .hash id entries => .hash id (mapTokensEntries f entries)
  | .function id literal scope => .function id (literal.mapTokens f) scope
  | .returnSignal v => .returnSignal (v.mapTokens f)
  | .integer n => .integer n
  | .boolean b => .boolean b
  | .string s => .string s
  | .builtin b => .builtin b
  | .null => .null
  | .error message => .error message

def mapTokensElements (f : Token → Token) : List Value → List Value
  | [] => []
  | v :: vs => v.mapTokens f :: mapTokensElements f vs

def mapTokensEntries (f : Token → Token) :
    List (HashKey × Value × Value) → List (HashKey × Value × Value)
  | [] => []
  | (key, k, v) :: entries => (key, k.mapTokens f, v.mapTokens f) :: mapTokensEntries f entries

end

mutual

theorem Value.mapTokens_id : ∀ v : Value, v.mapTokens id = v
  | .array _ vs => congrArg (Value.array _) (mapTokensElements_id vs)
  | .hash _ es => congrArg (Value.hash _) (mapTokensEntries_id es)
  | .function _ literal _ => congrArg (Value.function _ · _) literal.mapTokens_id
  | .returnSignal v => congrArg Value.returnSignal v.mapTokens_id
  | .integer _ | .boolean _ | .string _ | .builtin _ | .null | .error _ => rfl

theorem mapTokensElements_id : ∀ vs : List Value, mapTokensElements id vs = vs
  | [] => rfl
  | v :: vs => by rw [mapTokensElements, v.mapTokens_id, mapTokensElements_id vs]

theorem mapTokensEntries_id : ∀ es : HashEntries, mapTokensEntries id es = es
  | [] => rfl
  | (key, u, v) :: es => by
    rw [mapTokensEntries, u.mapTokens_id, v.mapTokens_id, mapTokensEntries_id es]

end

section Tokens

variable {f : Token → Token}

mutual

/-- Everything standing for itself, a value corresponds to the value with other tokens. -/
theorem Value.corresponds_mapTokens (hlike : ∀ g, like g (g.mapTokens f)) :
    ∀ v : Value, v.Corresponds .refl like (v.mapTokens f)
  | .integer _ | .boolean _ | .string _ | .builtin _ | .null => .plain rfl
  | .array _ vs => .array rfl (correspond_mapTokensElements hlike vs)
  | .hash _ es => .hash rfl (correspond_mapTokensEntries hlike es)
  | .function _ g _ => .function rfl (hlike g) rfl
  | .returnSignal v => .returnSignal (v.corresponds_mapTokens hlike)
  | .error message => .error message

theorem correspond_mapTokensElements (hlike : ∀ g, like g (g.mapTokens f)) : ∀ vs : List Value,
    List.Forall₂ (Value.Corresponds .refl like) vs (mapTokensElements f vs)
  | [] => .nil
  | v :: vs => .cons (v.corresponds_mapTokens hlike) (correspond_mapTokensElements hlike vs)

theorem correspond_mapTokensEntries (hlike : ∀ g, like g (g.mapTokens f)) : ∀ es : HashEntries,
    List.Forall₂ (EntryCorresponds .refl like) es (mapTokensEntries f es)
  | [] => .nil
  | (key, u, v) :: es =>
    .cons (.intro key (u.corresponds_mapTokens hlike) (v.corresponds_mapTokens hlike))
      (correspond_mapTokensEntries hlike es)

end

mutual

/-- If literals differ in their tokens only, it corresponds to no other value. -/
theorem Value.Corresponds.eq_mapTokens (hlike : ∀ {g g'}, like g g' → g' = g.mapTokens f) :
    ∀ {v w : Value}, v.Corresponds .refl like w → w = v.mapTokens f
  | _, _, .error _ => rfl
  | v, _, .plain h => by cases v <;> first | rfl | cases h
  | .function _ _ _, .function _ _ _, .function hid h hscope => by
    cases hid
    cases hscope
    rw [hlike h, Value.mapTokens]
  | .array _ vs, .array _ ws, .array hid h => by
    cases hid
    rw [eq_mapTokensElements hlike vs h, Value.mapTokens]
  | .hash _ es, .hash _ fs, .hash hid h => by
    cases hid
    rw [eq_mapTokensEntries hlike es h, Value.mapTokens]
  | .returnSignal _, .returnSignal _, .returnSignal h => by
    rw [h.eq_mapTokens hlike, Value.mapTokens]

theorem eq_mapTokensElements (hlike : ∀ {g g'}, like g g' → g' = g.mapTokens f) :
    ∀ (vs : List Value) {ws : List Value}, List.Forall₂ (Value.Corresponds .refl like) vs ws →
      ws = mapTokensElements f vs
  | [], _, .nil => rfl
  | _ :: vs, _ :: _, .cons h hs => by
    rw [h.eq_mapTokens hlike, eq_mapTokensElements hlike vs hs, mapTokensElements]

theorem eq_mapTokensEntries (hlike : ∀ {g g'}, like g g' → g' = g.mapTokens f) :
    ∀ (es : HashEntries) {fs : HashEntries}, List.Forall₂ (EntryCorresponds .refl like) es fs →
      fs = mapTokensEntries f es
  | [], _, .nil => rfl
  | (_, _, _) :: es, (_, _, _) :: _, .cons (.intro _ hkey hvalue) hs => by
    rw [hkey.eq_mapTokens hlike, hvalue.eq_mapTokens hlike, eq_mapTokensEntries hlike es hs,
      mapTokensEntries]

end

end Tokens

theorem Value.same_refl (v : Value) : v.Same .refl .any v := by
  have h : v.Same .refl .any (v.mapTokens id) :=
    v.corresponds_mapTokens fun g => ⟨g.hasShape_any, g.mapTokens_id⟩
  rwa [v.mapTokens_id] at h

/-- Where everything stands for itself, values that are the same are equal. -/
theorem Value.Corresponds.eq {k : Shape} (h : v.Same .refl k w) : v = w := by
  have hlike : ∀ {g g'}, FunctionLiteral.Same k g g' → g' = g.mapTokens id :=
    fun h => h.2.trans (FunctionLiteral.mapTokens_id _).symm
  rw [h.eq_mapTokens hlike, v.mapTokens_id]

end Values

/-! ## Heaps -/

namespace Heap

variable {h h' : Heap}

/--
Scopes that stand for each other are inside scopes that do, and bind the names that are `seen` in
them to the same values. What is made next in the one heap stands for what is made next in the
other.
-/
structure SameOn (ρ : Pairing) (k : Shape) (seen : ScopeId → String → Prop) (h h' : Heap) :
    Prop where
  has : ∀ {i j}, ρ.scope i j → (h.Has i ↔ h'.Has j)
  outer : ∀ {i j}, ρ.scope i j → Option.Rel ρ.scope (h.outer? i) (h'.outer? j)
  /-- A link that leads to an older scope in one heap does so in the other. -/
  older : ∀ {i j o p}, ρ.scope i j → h.outer? i = some o → h'.outer? j = some p →
    (o.index < i.index ↔ p.index < j.index)
  binding : ∀ {i j name}, ρ.scope i j → seen i name →
    Option.Rel (Value.Same ρ k) (h.binding? i name) (h'.binding? j name)
  newScope : ∀ n, ρ.scope ⟨h.scopes.size + n⟩ ⟨h'.scopes.size + n⟩
  newIdentity : ∀ n, ρ.identity ⟨h.nextSerial + n⟩ ⟨h'.nextSerial + n⟩

namespace SameOn

variable {ρ : Pairing} {k : Shape} {seen : ScopeId → String → Prop} {i j : ScopeId}

/-- A name that is seen in every scope has the same value. -/
theorem lookup (hh : h.SameOn ρ k seen h') {name : String} (hname : ∀ i, seen i name)
    (hij : ρ.scope i j) : Option.Rel (Value.Same ρ k) (h.lookup i name) (h'.lookup j name) := by
  -- By induction on the place of the scope: a lookup goes on to older scopes only.
  obtain ⟨n⟩ := i
  induction n using Nat.strongRecOn generalizing j with
  | ind n ih =>
    rw [lookup_eq, lookup_eq h' j]
    have hbinding := hh.binding hij (hname ⟨n⟩)
    generalize h.binding? ⟨n⟩ name = b at hbinding ⊢
    generalize h'.binding? j name = b' at hbinding ⊢
    cases hbinding with
    | some hv => exact .some hv
    | none =>
      have houter := hh.outer hij
      generalize ho : h.outer? ⟨n⟩ = o, hp : h'.outer? j = p at houter
      cases houter with
      | none => exact .none
      | @some o p hop =>
        have holder := hh.older hij ho hp
        by_cases hlt : o.index < n
        · simpa [hlt, holder.mp hlt] using ih o.index hlt hop
        · have hnot : ¬p.index < j.index := fun hlt' => hlt (holder.mpr hlt')
          simp [hlt, hnot]

/-- A name is bound in scopes that stand for each other, to values that are the same. -/
theorem set (hh : h.SameOn ρ k seen h') (hij : ρ.scope i j) (name : String) {v w : Value}
    (hv : v.Same ρ k w) : (h.set i name v).SameOn ρ k seen (h'.set j name w) where
  has hab := has_set_iff.trans ((hh.has hab).trans has_set_iff.symm)
  outer hab := by
    rw [outer?_set, outer?_set]
    exact hh.outer hab
  older hab ho hp := by
    rw [outer?_set] at ho hp
    exact hh.older hab ho hp
  binding {a b other} hab hseen := by
    have hiff : (i = a ∧ name = other ∧ h.Has a) ↔ (j = b ∧ name = other ∧ h'.Has b) :=
      and_congr (ρ.scope_iff hij hab) (and_congr Iff.rfl (hh.has hab))
    rw [binding?_set, binding?_set]
    by_cases hbound : i = a ∧ name = other ∧ h.Has a
    · rw [if_pos hbound, if_pos (hiff.mp hbound)]
      exact .some hv
    · rw [if_neg hbound, if_neg (mt hiff.mpr hbound)]
      exact hh.binding hab hseen
  newScope n := by
    rw [size_set, size_set]
    exact hh.newScope n
  newIdentity := hh.newIdentity

/-- The places of the next scopes stand for each other. -/
theorem scope_newScope (hh : h.SameOn ρ k seen h') (o p : Option ScopeId) :
    ρ.scope (h.newScope o).1 (h'.newScope p).1 := hh.newScope 0

/-- A scope is made inside scopes that stand for each other. -/
theorem newScope_some (hh : h.SameOn ρ k seen h') (hij : ρ.scope i j) :
    (h.newScope (some i)).2.SameOn ρ k seen (h'.newScope (some j)).2 := by
  -- The two heaps grow in step, so a new scope is paired with a new scope only.
  have hnew : ∀ {a b}, ρ.scope a b → (a = ⟨h.scopes.size⟩ ↔ b = ⟨h'.scopes.size⟩) :=
    fun hab => ρ.scope_iff hab (hh.newScope 0)
  constructor
  · intro a b hab
    rw [has_newScope_iff, has_newScope_iff]
    exact or_congr (hh.has hab) (hnew hab)
  · intro a b hab
    rw [outer?_newScope, outer?_newScope]
    by_cases ha : a = ⟨h.scopes.size⟩
    · rw [if_pos ha, if_pos ((hnew hab).mp ha)]
      exact .some hij
    · rw [if_neg ha, if_neg (mt (hnew hab).mpr ha)]
      exact hh.outer hab
  · intro a b o p hab ho hp
    rw [outer?_newScope] at ho hp
    by_cases ha : a = ⟨h.scopes.size⟩
    · have hb := (hnew hab).mp ha
      rw [if_pos ha] at ho
      rw [if_pos hb] at hp
      cases ho
      cases hp
      rw [ha, hb]
      exact hh.has hij
    · rw [if_neg ha] at ho
      rw [if_neg (mt (hnew hab).mpr ha)] at hp
      exact hh.older hab ho hp
  · intro a b name hab hseen
    rw [binding?_newScope, binding?_newScope]
    exact hh.binding hab hseen
  · intro n
    rw [size_newScope, size_newScope, Nat.add_assoc, Nat.add_assoc]
    exact hh.newScope (1 + n)
  · exact hh.newIdentity

theorem freshIdentity (hh : h.SameOn ρ k seen h') :
    ρ.identity h.freshIdentity.1 h'.freshIdentity.1 ∧
      h.freshIdentity.2.SameOn ρ k seen h'.freshIdentity.2 := by
  refine ⟨hh.newIdentity 0, hh.has, hh.outer, hh.older, hh.binding, hh.newScope, fun n => ?_⟩
  have hidentity := hh.newIdentity (1 + n)
  rwa [← Nat.add_assoc, ← Nat.add_assoc] at hidentity

end SameOn

end Heap

end Ember
