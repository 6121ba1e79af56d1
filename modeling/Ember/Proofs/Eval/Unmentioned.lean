import Ember.Proofs.Eval.Coupling

/-!
# Names that nobody mentions

Two heaps hold the same but for one binding: in one scope a name is bound to something else, or not
bound at all. If the name stands neither in a tree nor in a function that the tree can come by, it
makes no difference in which of the two heaps the tree is evaluated
(`Machine.unmentioned_irrelevant`). Afterwards the heaps hold the same again, but for that binding.

A tree comes by what is reached from its scope, without passing through the binding. Nothing is
asked of the functions that are reached through the binding only, nor of the rest of the heap.

The heaps need not have come about in the same way: what is the same is so under a pairing. Where
every scope and every identity stands for itself, the answers are equal
(`Machine.evalWith_eq_of_sameBut`). This is so when one heap is the other with a name bound in it,
and gives a result of its own: to bind a name that is not mentioned changes no answer
(`Machine.evalWith_set`).
-/

namespace Ember

/-- The name stands nowhere: not as a variable, not where a name is bound, not as a parameter. -/
def Shape.omitting (x : String) : Shape := ⟨fun i => i.name ≠ x, fun _ => True, True⟩

namespace Pairing

/-- The pairing, for some of the scopes only. -/
def restrict (ρ : Pairing) (own : ScopeId → Prop) : Pairing where
  scope i j := ρ.scope i j ∧ own i
  identity := ρ.identity
  scope_iff h h' := ρ.scope_iff h.1 h'.1
  identity_iff := ρ.identity_iff

/-- The scope of the first heap stands for one of the second. -/
def Left (ρ : Pairing) (i : ScopeId) : Prop := ∃ j, ρ.scope i j

/-- A scope of the first heap stands for the scope of the second. -/
def Right (ρ : Pairing) (j : ScopeId) : Prop := ∃ i, ρ.scope i j

variable {ρ : Pairing} {own : ScopeId → Prop} {i j : ScopeId}

theorem not_left_restrict (hown : ¬own i) : ¬(ρ.restrict own).Left i := fun ⟨_, _, h⟩ => hown h

theorem not_right_restrict (hij : ρ.scope i j) (hown : ¬own i) : ¬(ρ.restrict own).Right j := by
  rintro ⟨i', hij', hown'⟩
  obtain rfl := (ρ.scope_iff hij hij').mpr rfl
  exact hown hown'

end Pairing

/-- What is the same in some of the scopes is the same. -/
theorem Value.Corresponds.widen {ρ : Pairing} {own : ScopeId → Prop} {k : Shape} {v w : Value}
    (h : v.Same (ρ.restrict own) k w) : v.Same ρ .any w := by
  have hid : ∀ {i j}, (ρ.restrict own).identity i j → ρ.identity i j := id
  exact h.transfer hid fun _ f _ _ _ _ hscope hf => ⟨hscope.1, f.hasShape_any, hf.2⟩

namespace Heap

/-! ## One binding -/

/-- The name in the scope is not `x` in `holder`. -/
def Past (holder : ScopeId) (x : String) (id : ScopeId) (name : String) : Prop :=
  ¬(id = holder ∧ name = x)

/-- The heaps hold the same, but for what `x` is bound to in the scope `holder` of the first. -/
abbrev SameBut (ρ : Pairing) (holder : ScopeId) (x : String) (h h' : Heap) : Prop :=
  h.SameOn ρ .any (Past holder x) h'

/--
A scope is reached through the scopes around one and through the functions bound in one, but not
through the binding of `x` in `holder`.
-/
inductive ReachesPast (h : Heap) (holder : ScopeId) (x : String) (start : ScopeId) :
    ScopeId → Prop
  | start : ReachesPast h holder x start start
  | outer {id o : ScopeId} (hid : ReachesPast h holder x start id) (ho : h.outer? id = some o) :
      ReachesPast h holder x start o
  | captured {id s : ScopeId} {name : String} {v : Value} {i : Identity} {f : FunctionLiteral}
      (hid : ReachesPast h holder x start id) (hpast : Past holder x id name)
      (hv : h.binding? id name = some v) (hf : (Value.function i f s).Part v) :
      ReachesPast h holder x start s

/-- No function that is reached from `start` past the binding mentions `x`. -/
def OmitsFrom (h : Heap) (holder : ScopeId) (x : String) (start : ScopeId) : Prop :=
  ∀ id name v i f s, h.ReachesPast holder x start id → Past holder x id name →
    h.binding? id name = some v → (Value.function i f s).Part v → f.HasShape (.omitting x)

/-- Heaps that are equal but for the binding hold the same, everything standing for itself. -/
theorem SameBut.of_eq {h h' : Heap} {holder : ScopeId} {x : String}
    (hsize : h'.scopes.size = h.scopes.size) (hserial : h'.nextSerial = h.nextSerial)
    (houter : ∀ id, h'.outer? id = h.outer? id)
    (hbinding : ∀ id name, Past holder x id name → h'.binding? id name = h.binding? id name) :
    h.SameBut .refl holder x h' where
  has := by
    rintro i _ rfl
    rw [Has, Has, hsize]
  outer := by
    rintro i _ rfl
    rw [houter]
    cases h.outer? i with
    | none => exact .none
    | some o => exact .some rfl
  older := by
    rintro i _ o p rfl ho hp
    rw [houter, ho] at hp
    cases hp
    exact Iff.rfl
  binding := by
    rintro i _ name rfl hpast
    rw [hbinding i name hpast]
    cases h.binding? i name with
    | none => exact .none
    | some v => exact .some v.same_refl
  newScope n := congrArg (fun size => ScopeId.mk (size + n)) hsize.symm
  newIdentity n := congrArg (fun serial => Identity.mk (serial + n)) hserial.symm

/-- Binding `x` makes no other difference. -/
theorem SameBut.set_self (h : Heap) (holder : ScopeId) (x : String) (v : Value) :
    h.SameBut .refl holder x (h.set holder x v) := by
  refine .of_eq (size_set h holder x v) rfl (outer?_set h holder x v) fun id name hpast => ?_
  rw [binding?_set, if_neg fun hbound => hpast ⟨hbound.1.symm, hbound.2.1.symm⟩]

/-! ## What stays as it is -/

/-- In the second heap the scopes that are not `own` are as in the first, and so is every `x`. -/
structure Spares (own : ScopeId → Prop) (x : String) (h h' : Heap) : Prop where
  scope : ∀ id, ¬own id → h'.scope? id = h.scope? id
  binding : ∀ id, h'.binding? id x = h.binding? id x

namespace Spares

variable {own own' : ScopeId → Prop} {x : String} {h h' : Heap} {id : ScopeId}

theorem refl (own : ScopeId → Prop) (x : String) (h : Heap) : h.Spares own x h :=
  ⟨fun _ _ => rfl, fun _ => rfl⟩

theorem mono (hh : h.Spares own x h') (hown : ∀ id, own id → own' id) : h.Spares own' x h' :=
  ⟨fun id hid => hh.scope id (mt (hown id) hid), hh.binding⟩

theorem set (hh : h.Spares own x h') (hid : own id) {name : String} (hname : name ≠ x)
    (v : Value) : h.Spares own x (h'.set id name v) where
  scope i hi := by
    have hne : id ≠ i := fun heq => hi (heq ▸ hid)
    rw [scope?_set, if_neg hne]
    exact hh.scope i hi
  binding i := by
    rw [binding?_set, if_neg fun hbound => hname hbound.2.1]
    exact hh.binding i

theorem newScope (hh : h.Spares own x h') (hnew : own ⟨h'.scopes.size⟩)
    (outer : Option ScopeId) : h.Spares own x (h'.newScope outer).2 where
  scope i hi := by
    have hne : i ≠ ⟨h'.scopes.size⟩ := fun heq => hi (heq ▸ hnew)
    rw [scope?_newScope, if_neg hne]
    exact hh.scope i hi
  binding i := by
    rw [binding?_newScope]
    exact hh.binding i

theorem freshIdentity (hh : h.Spares own x h') : h.Spares own x h'.freshIdentity.2 :=
  ⟨hh.scope, hh.binding⟩

end Spares

/-! ## What is reached -/

section Reach

variable {ρ : Pairing} {holder env : ScopeId} {x : String} {h h' k k' : Heap}

/-- What is reached from `env` past the binding, and what is not there yet. -/
def Region (h : Heap) (holder : ScopeId) (x : String) (env id : ScopeId) : Prop :=
  h.ReachesPast holder x env id ∨ ¬h.Has id

theorem Region.reaches {id : ScopeId} (hid : h.Region holder x env id) (hhas : h.Has id) :
    h.ReachesPast holder x env id := hid.resolve_right (not_not_intro hhas)

theorem has_of_outer? {id o : ScopeId} (ho : h.outer? id = some o) : h.Has id := by
  obtain ⟨s, hs, -⟩ := Option.bind_eq_some_iff.mp ho
  exact has_iff.mpr ⟨s, hs⟩

theorem has_of_binding? {id : ScopeId} {name : String} {v : Value}
    (hv : h.binding? id name = some v) : h.Has id := by
  obtain ⟨s, hs, -⟩ := Option.bind_eq_some_iff.mp hv
  exact has_iff.mpr ⟨s, hs⟩

/-- In the region, the two heaps hold the same under every name but `x`. -/
theorem SameOn.restrict (hh : h.SameBut ρ holder x h') (hcode : h.OmitsFrom holder x env) :
    h.SameOn (ρ.restrict (h.Region holder x env)) (.omitting x) (fun _ name => name ≠ x) h' where
  has hij := hh.has hij.1
  outer hij := rel_imp (hh.outer hij.1) fun _ _ ho _ hop =>
    ⟨hop, .inl (.outer (hij.2.reaches (has_of_outer? ho)) ho)⟩
  older hij := hh.older hij.1
  binding {i j name} hij hname := by
    have hpast : Past holder x i name := fun hbinding => hname hbinding.2
    refine rel_imp (hh.binding hij.1 hpast) fun v w hv _ hsame => ?_
    have hreaches := hij.2.reaches (has_of_binding? hv)
    have hid : ∀ {i j}, ρ.identity i j →
        (ρ.restrict (h.Region holder x env)).identity i j := id
    refine hsame.transfer hid fun i f s g t hpart hscope hf => ⟨⟨hscope, ?_⟩, ?_, hf.2⟩
    · exact .inl (.captured hreaches hpast hv hpart)
    · exact hcode _ _ _ i f s hreaches hpast hv hpart
  newScope n := ⟨hh.newScope n, .inr (Nat.not_lt.mpr (Nat.le_add_right _ _))⟩
  newIdentity := hh.newIdentity

/-- Two heaps that differ in one binding go on to differ in it, and only in it. -/
theorem SameBut.of_restrict {own : ScopeId → Prop} (hstart : h.SameBut ρ holder x h')
    (hh : k.SameOn (ρ.restrict own) (.omitting x) (fun _ name => name ≠ x) k')
    (hspares : h.Spares (ρ.restrict own).Left x k)
    (hspares' : h'.Spares (ρ.restrict own).Right x k') : k.SameBut ρ holder x k' := by
  -- A scope of the region has stayed the same as the other one; any other is what it was.
  have hkept : ∀ {i j}, ρ.scope i j → ¬own i →
      k.scope? i = h.scope? i ∧ k'.scope? j = h'.scope? j := fun hij hown =>
    ⟨hspares.scope _ (Pairing.not_left_restrict hown),
      hspares'.scope _ (Pairing.not_right_restrict hij hown)⟩
  constructor
  · intro i j hij
    by_cases hown : own i
    · exact hh.has ⟨hij, hown⟩
    · obtain ⟨hi, hj⟩ := hkept hij hown
      rw [has_congr hi, has_congr hj]
      exact hstart.has hij
  · intro i j hij
    by_cases hown : own i
    · exact rel_imp (hh.outer ⟨hij, hown⟩) fun _ _ _ _ hop => hop.1
    · obtain ⟨hi, hj⟩ := hkept hij hown
      rw [outer?_congr hi, outer?_congr hj]
      exact hstart.outer hij
  · intro i j o p hij ho hp
    by_cases hown : own i
    · exact hh.older ⟨hij, hown⟩ ho hp
    · obtain ⟨hi, hj⟩ := hkept hij hown
      exact hstart.older hij ((outer?_congr hi).symm.trans ho) ((outer?_congr hj).symm.trans hp)
  · intro i j name hij hpast
    by_cases hname : name = x
    · rw [hname] at hpast ⊢
      rw [hspares.binding, hspares'.binding]
      exact hstart.binding hij hpast
    by_cases hown : own i
    · exact rel_imp (hh.binding ⟨hij, hown⟩ hname) fun _ _ _ _ hv => hv.widen
    · obtain ⟨hi, hj⟩ := hkept hij hown
      rw [binding?_congr hi, binding?_congr hj]
      exact hstart.binding hij hpast
  · exact fun n => (hh.newScope n).1
  · exact hh.newIdentity

end Reach

end Heap

/-! ## The coupling -/

/--
The machines hold the same under every name but `x`, in scopes that stand for each other. The
others are as in the heaps `h` and `h'`, and so is what `x` is bound to.
-/
structure Machine.Twins (ρ : Pairing) (x : String) (h h' : Heap) (m m' : Machine) : Prop where
  heap : m.heap.SameOn ρ (.omitting x) (fun _ name => name ≠ x) m'.heap
  calls : m'.calls = m.calls
  printer : m'.printer = m.printer
  spares : h.Spares ρ.Left x m.heap
  spares' : h'.Spares ρ.Right x m'.heap

namespace Coupling

variable (ρ : Pairing) (x : String) (h h' : Heap)

/-- Machines that hold the same under every name but `x`. -/
def omitting : Coupling where
  pairing := ρ
  shape := .omitting x
  token := id
  Rel := Machine.Twins ρ x h h'

theorem same_omitting : (omitting ρ x h h').Same = Value.Same ρ (.omitting x) :=
  congrArg (Value.Corresponds ρ) (like_eq_same rfl)

theorem lawful_omitting : (omitting ρ x h h').Lawful where
  lookup hm hij hname := by
    rw [same_omitting]
    exact hm.heap.lookup (fun _ => hname) hij
  set hm hij hname hv := by
    rw [same_omitting] at hv
    exact ⟨hm.heap.set hij _ hv, hm.calls, hm.printer, hm.spares.set ⟨_, hij⟩ hname _,
      hm.spares'.set ⟨_, hij⟩ hname _⟩
  identity hm :=
    ⟨hm.heap.freshIdentity.1, hm.heap.freshIdentity.2, hm.calls, hm.printer,
      hm.spares.freshIdentity, hm.spares'.freshIdentity⟩
  newScope hm hij :=
    ⟨hm.heap.scope_newScope _ _, hm.heap.newScope_some hij, hm.calls, hm.printer,
      hm.spares.newScope ⟨_, hm.heap.newScope 0⟩ _, hm.spares'.newScope ⟨_, hm.heap.newScope 0⟩ _⟩
  pushFrame {m m' f g} hm hframe := by
    rw [hframe.eq rfl, hm.calls]
    cases m.calls.push g with
    | ok calls => exact .ok ⟨hm.heap, rfl, hm.printer, hm.spares, hm.spares'⟩
    | error fault => exact .error fault
  popFrame hm :=
    ⟨hm.heap, congrArg CallStack.pop hm.calls, hm.printer, hm.spares, hm.spares'⟩

theorem prints_omitting : (omitting ρ x h h').Prints := fun _ _ line hm =>
  ⟨hm.heap, hm.calls, congrArg (Printer.println line) hm.printer, hm.spares, hm.spares'⟩

end Coupling

theorem Outcome.Same.widen {ρ : Pairing} {own : ScopeId → Prop} {k : Shape} {o o' : Outcome}
    (h : o.Same (ρ.restrict own) k o') : o.Same ρ .any o' := by
  cases h with
  | value hv => exact .value hv.widen
  | fault f => exact .fault f
  | exhausted => exact .exhausted

/-- Where every scope and identity stands for itself, outcomes that are the same are equal. -/
theorem Outcome.Same.eq {k : Shape} {o o' : Outcome} (h : o.Same .refl k o') : o = o' := by
  cases h with
  | value hv => rw [hv.eq]
  | fault f => rfl
  | exhausted => rfl

namespace Machine

section Unmentioned

variable {ρ : Pairing} {holder env env' : ScopeId} {x : String} {m m' : Machine} {node : Node}

/-- The evaluations go in step, in the region that the node can come by. -/
theorem twins_evalWith (hheap : m.heap.SameBut ρ holder x m'.heap)
    (hcalls : m'.calls = m.calls) (hprinter : m'.printer = m.printer)
    (henv : ρ.scope env env') (hnode : node.HasShape (.omitting x))
    (hcode : m.heap.OmitsFrom holder x env) (budget : Nat) :
    let σ := ρ.restrict (m.heap.Region holder x env)
    (m.evalWith budget env node).1.Same σ (.omitting x) (m'.evalWith budget env' node).1 ∧
      Twins σ x m.heap m'.heap (m.evalWith budget env node).2 (m'.evalWith budget env' node).2 := by
  intro σ
  have hstart : Twins σ x m.heap m'.heap m m' :=
    ⟨hheap.restrict hcode, hcalls, hprinter, .refl _ x _, .refl _ x _⟩
  have hscope : σ.scope env env' := ⟨henv, .inl .start⟩
  let C := Coupling.omitting σ x m.heap m'.heap
  have hlike : C.Like = FunctionLiteral.Same (.omitting x) := Coupling.like_eq_same rfl
  have hresults := (Coupling.lawful_omitting σ x m.heap m'.heap).evalWith
    (Coupling.prints_omitting ..) hstart hscope (.of_hasShape rfl hnode) budget
  rwa [hlike] at hresults

/--
Two machines hold the same, but for what the name `x` is bound to in one scope. It is mentioned
neither in a node nor in a function that is reached from the scope of the node past that binding.
Then evaluating the node ends in the same way on both, prints the same and leaves the same calls,
and the machines hold the same again but for that binding. No binding of `x` has changed, and
neither has a scope of one machine that stands for none of the other.
-/
theorem unmentioned_irrelevant (hheap : m.heap.SameBut ρ holder x m'.heap)
    (hcalls : m'.calls = m.calls) (hprinter : m'.printer = m.printer)
    (henv : ρ.scope env env') (hnode : node.HasShape (.omitting x))
    (hcode : m.heap.OmitsFrom holder x env) (budget : Nat) :
    let r := m.evalWith budget env node
    let r' := m'.evalWith budget env' node
    r.1.Same ρ .any r'.1 ∧ r'.2.printer = r.2.printer ∧ r'.2.calls = r.2.calls ∧
      r.2.heap.SameBut ρ holder x r'.2.heap ∧
      m.heap.Spares ρ.Left x r.2.heap ∧ m'.heap.Spares ρ.Right x r'.2.heap := by
  intro r r'
  obtain ⟨hsame, hend⟩ := twins_evalWith hheap hcalls hprinter henv hnode hcode budget
  refine ⟨hsame.widen, hend.printer, hend.calls, ?_, ?_, ?_⟩
  · exact .of_restrict hheap hend.heap hend.spares hend.spares'
  · exact hend.spares.mono fun _ ⟨j, hij⟩ => ⟨j, hij.1⟩
  · exact hend.spares'.mono fun _ ⟨i, hij⟩ => ⟨i, hij.1⟩

/--
Where every scope and identity stands for itself, the evaluations end in equal values or in the same
fault, and print the same.
-/
theorem evalWith_eq_of_sameBut (hheap : m.heap.SameBut .refl holder x m'.heap)
    (hcalls : m'.calls = m.calls) (hprinter : m'.printer = m.printer)
    (hnode : node.HasShape (.omitting x)) (hcode : m.heap.OmitsFrom holder x env) (budget : Nat) :
    (m'.evalWith budget env node).1 = (m.evalWith budget env node).1 ∧
      (m'.evalWith budget env node).2.printer = (m.evalWith budget env node).2.printer := by
  obtain ⟨hsame, hend⟩ := twins_evalWith hheap hcalls hprinter rfl hnode hcode budget
  exact ⟨hsame.widen.eq.symm, hend.printer⟩

/-- It makes no difference whether a name that is not mentioned is bound first. -/
theorem evalWith_set (v : Value) (hnode : node.HasShape (.omitting x))
    (hcode : m.heap.OmitsFrom holder x env) (budget : Nat) :
    let m' : Machine := { m with heap := m.heap.set holder x v }
    (m'.evalWith budget env node).1 = (m.evalWith budget env node).1 ∧
      (m'.evalWith budget env node).2.printer = (m.evalWith budget env node).2.printer := by
  intro m'
  have hheap : m.heap.SameBut .refl holder x m'.heap := .set_self m.heap holder x v
  exact evalWith_eq_of_sameBut hheap rfl rfl hnode hcode budget

end Unmentioned

end Machine

/-! ### A function that nobody calls -/

/-- The first heap has given out one identity that the second has not. -/
def Pairing.skipping (id : Identity) : Pairing where
  scope i j := i = j
  identity i j := i.serial = if j.serial < id.serial then j.serial else j.serial + 1
  scope_iff := Pairing.refl.scope_iff
  identity_iff := by
    rintro ⟨i⟩ ⟨i'⟩ ⟨j⟩ ⟨j'⟩ hi hj
    simp only [Identity.mk.injEq] at hi hj ⊢
    split at hi <;> split at hj <;> omega

/-- A scope that binds a function which prints a line. -/
def Heap.printing : Heap :=
  { (empty.newScope none).2.set ⟨0⟩ "f" (.function ⟨0⟩ (.calling "puts") ⟨0⟩) with
    nextSerial := 1 }

/-- The scope binds another function too, which calls itself without end. -/
def Heap.recursing : Heap :=
  { printing.set ⟨0⟩ "g" (.function ⟨1⟩ (.calling "g") ⟨0⟩) with nextSerial := 2 }

namespace Heap

theorem binding?_printing (id : ScopeId) (name : String) : printing.binding? id name =
    if id = ⟨0⟩ ∧ name = "f" then some (.function ⟨0⟩ (.calling "puts") ⟨0⟩) else none := by
  have hempty : empty.binding? id name = none := by simp [binding?, scope?, empty]
  show ((empty.newScope none).2.set ⟨0⟩ "f" _).binding? id name = _
  rw [binding?_set, binding?_newScope, hempty]
  refine if_congr ⟨fun hbound => ⟨hbound.1.symm, hbound.2.1.symm⟩, ?_⟩ rfl rfl
  rintro ⟨rfl, rfl⟩
  exact ⟨rfl, rfl, by decide⟩

theorem outer?_printing (id : ScopeId) : printing.outer? id = none := by
  have hempty : empty.outer? id = none := by simp [outer?, scope?, empty]
  show ((empty.newScope none).2.set ⟨0⟩ "f" _).outer? id = none
  rw [outer?_set, outer?_newScope, hempty, ite_self]

/-- Past the binding of `g` the two heaps bind the same. -/
theorem binding?_recursing {id : ScopeId} {name : String} (hpast : Past ⟨0⟩ "g" id name) :
    recursing.binding? id name = printing.binding? id name := by
  show (printing.set ⟨0⟩ "g" _).binding? id name = _
  rw [binding?_set, if_neg fun hbound => hpast ⟨hbound.1.symm, hbound.2.1.symm⟩]

theorem sameBut_recursing : recursing.SameBut (.skipping ⟨1⟩) ⟨0⟩ "g" printing where
  has {i j} hij := by
    obtain rfl : i = j := hij
    exact has_set_iff
  outer {i j} _ := by
    have houter : recursing.outer? i = none :=
      (outer?_set printing _ _ _ i).trans (outer?_printing i)
    rw [houter, outer?_printing]
    exact .none
  older {i j o p} _ _ hp := by
    rw [outer?_printing] at hp
    cases hp
  binding {i j name} hij hpast := by
    obtain rfl : i = j := hij
    rw [binding?_recursing hpast, binding?_printing]
    split
    · exact .some (.function rfl ⟨FunctionLiteral.hasShape_any _, rfl⟩ rfl)
    · exact .none
  newScope n := rfl
  newIdentity n := by
    show 2 + n = if 1 + n < 1 then 1 + n else 1 + n + 1
    rw [if_neg (by omega)]
    omega

theorem omitsFrom_recursing : recursing.OmitsFrom ⟨0⟩ "g" ⟨0⟩ := by
  have hname : "puts" ≠ "g" := by decide
  intro id name v i f s _ hpast hv hpart
  rw [binding?_recursing hpast, binding?_printing] at hv
  split at hv
  · cases hv
    cases hpart
    exact ⟨nofun, ⟨hname, trivial, trivial⟩, ⟨hname, trivial⟩, trivial⟩
  · cases hv

end Heap

/-- The function is called, and an array made that has its answer and the function itself. -/
theorem Machine.unmentioned_irrelevant_recursing :
    let t := Token.endOfInput
    let f := Expr.identifier ⟨t, "f"⟩
    let p : Program := ⟨[.expression t (.array t [.call t f [], f])], []⟩
    let m : Machine := ⟨.recursing, .empty (some 3), .fresh⟩
    let m' : Machine := ⟨.printing, .empty (some 3), .fresh⟩
    let v := Value.function ⟨0⟩ (.calling "puts") ⟨0⟩
    (m.evalWith 3 ⟨0⟩ (.program p)).1 = .value (.array ⟨2⟩ [.null, v]) ∧
      (m'.evalWith 3 ⟨0⟩ (.program p)).1 = .value (.array ⟨1⟩ [.null, v]) ∧
      (m.evalWith 3 ⟨0⟩ (.program p)).1.Same (.skipping ⟨1⟩) .any
        (m'.evalWith 3 ⟨0⟩ (.program p)).1 := by
  intro t f p m m' v
  refine ⟨by with_unfolding_all rfl, by with_unfolding_all rfl, ?_⟩
  have hf : f.HasShape (.omitting "g") := by
    show "f" ≠ "g"
    decide
  have hnode : (Node.program p).HasShape (.omitting "g") :=
    ⟨⟨⟨hf, trivial⟩, hf, trivial⟩, trivial⟩
  have hheap : m.heap.SameBut (.skipping ⟨1⟩) ⟨0⟩ "g" m'.heap := Heap.sameBut_recursing
  have hcode : m.heap.OmitsFrom ⟨0⟩ "g" ⟨0⟩ := Heap.omitsFrom_recursing
  exact (unmentioned_irrelevant hheap rfl rfl rfl hnode hcode 3).1

end Ember
