import Ember.Proofs.Identity.Inventory

/-!
# One identity, one value

A session begins in a new scope and goes on for any number of evaluations, each on the heap that the
one before has left (`Moment.Before`). Through all of it, an identity that was given out stays with
one value: two values that are there at any two moments and have the same identity are the same
(`Moment.Before.eq_of_identity?`), and a value that is made has an identity that no value had before
(`Moment.Before.serial_lt`). Signals are never among the values.

The equality of the language asks for the identity of arrays, hashes and functions. So what it says
of them can be told from this.
-/

namespace Ember

/-! ## Identities and equality -/

namespace Value

variable {v w : Value}

/-- The identity of an array, a hash or a function. -/
def identity? : Value → Option Identity
  | array id _ | hash id _ | function id _ _ => some id
  | _ => none

theorem identity?_of_isPlain (h : v.isPlain = true) : v.identity? = none := by
  cases v with
  | array _ _ | hash _ _ | function _ _ _ | returnSignal _ | error _ => cases h
  | _ => rfl

theorem isSignal_of_isPlain (h : v.isPlain = true) : v.isSignal = false := by
  cases v with
  | array _ _ | hash _ _ | function _ _ _ | returnSignal _ | error _ => cases h
  | _ => rfl

/-- Values that are equal have the same identity, or have none. -/
theorem identity?_of_equal (h : v.equal w = true) : v.identity? = w.identity? := by
  cases v <;> cases w <;> simp_all [equal, identity?]

/-- Every value but a signal equals itself. -/
theorem equal_self (h : v.isSignal = false) : v.equal v = true := by
  cases v with
  | returnSignal _ | error _ => cases h
  | _ => simp [equal]

end Value

/-- Where there are no signals, the operator answers what equality says. -/
theorem evalBinary_eq {v w : Value} (hv : v.isSignal = false) (hw : w.isSignal = false) :
    evalBinary v .eq w = .ok (.boolean (v.equal w)) := by
  unfold evalBinary
  simp only [hv, hw, Bool.or_false, Bool.false_eq_true, if_false]
  split <;> rfl

theorem Action.Makes.identity? {env : ScopeId} {id : Identity} {p : Action} {w : Value}
    (h : p.Makes env id w) : w.identity? = some id := by
  cases h <;> rfl

theorem Action.Makes.isSignal {env : ScopeId} {id : Identity} {p : Action} {w : Value}
    (h : p.Makes env id w) : w.isSignal = false := by
  cases h <;> rfl

/-! ## Sessions -/

namespace Moment

/--
The moments from `a` on: those of the evaluation under way and of the ones that are begun when it is
over, by any interpreter, on the heap that it has left. Every moment that is left behind satisfies
`P`.
-/
inductive Through (P : Moment → Prop) (a : Moment) : Moment → Prop
  | refl : Through P a a
  | next {b : Moment} (h : Through P a b) (hb : P b) : Through P a b.next
  | again {b : Moment} {r : Outcome × Machine} (h : Through P a b) (hb : P b)
      (hr : b.outcome? = some r) {m : Machine} (hm : m.heap = r.2.heap) {env : ScopeId}
      (henv : m.heap.Has env) (node : Node) : Through P a (start m env node)

/-- The second moment is the first one or a later one of the same session. -/
abbrev Before (a b : Moment) : Prop := a.Through (fun _ => True) b

/-- The moment is the first one of a session: a node is evaluated in a new scope. -/
def Opens (a : Moment) : Prop :=
  ∃ (m : Machine) (node : Node), m.heap = (Heap.empty.newScope none).2 ∧ a = start m ⟨0⟩ node

variable {P Q : Moment → Prop} {a b c : Moment} {v w : Value}

/-- When an evaluation is begun, nothing is there but null and what is bound. -/
theorem values_start (m : Machine) (env : ScopeId) (node : Node) :
    ∀ v ∈ (start m env node).values, v.isPlain = true ∨ v ∈ m.heap.values := by
  have hnull : ∀ v ∈ [Value.null], v.isPlain = true ∨ v ∈ m.heap.values :=
    List.forall_mem_singleton.mpr (.inl rfl)
  cases node with
  | program p =>
    exact forall_mem_values.mpr
      ⟨hnull, List.forall_mem_singleton.mpr nofun, nofun, fun _ => .inr⟩
  | statement _ | expression _ | missing =>
    exact forall_mem_values.mpr ⟨nofun, nofun, nofun, fun _ => .inr⟩

/-- An evaluation is begun with what the one before has left. -/
theorem gains_again {r : Outcome × Machine} (hr : b.outcome? = some r) {m : Machine}
    (hm : m.heap = r.2.heap) (env : ScopeId) (node : Node) : b.Gains (start m env node) := by
  have hheap : m.heap = b.machine.heap := by rw [hm, machine_of_outcome? hr]
  obtain ⟨-, -, -, hbound⟩ := b.from_values
  refine .known ?_ fun v hv => ?_
  · rw [machine_start, hheap]
  · rcases values_start m env node v hv with hplain | hmem
    · exact .inl hplain
    · exact hbound v (hheap ▸ hmem)

/-- What is kept by everything that a step can do to the values holds through a session. -/
theorem Through.invariant (hgains : ∀ {b c}, b.Gains c → Q b → Q c) (h : a.Through P b)
    (ha : Q a) : Q b := by
  induction h with
  | refl => exact ha
  | next _ _ ih => exact hgains (gains_next _) ih
  | again _ _ hr hm _ node ih => exact hgains (gains_again hr hm _ node) ih

/-! ## The values of a session -/

/-- No value is there after a step but those that were there, plain ones and the one made. -/
theorem Gains.has (h : a.Gains b) (hv : b.Has v) :
    v.isPlain = true ∨ a.Has v ∨
      a.Makes v ∧ b.machine.heap.nextSerial = a.machine.heap.nextSerial + 1 := by
  obtain ⟨w, hw, hvw⟩ := hv
  cases h with
  | known _ hvalues =>
    rcases (hvalues w hw).part hvw with hplain | hhas
    · exact .inl hplain
    · exact .inr (.inl hhas)
  | @made u hu heq =>
    subst heq
    obtain ⟨p, hp, hmakes⟩ := hu
    obtain ⟨hfocus, hpending, hcallers, hheap⟩ := a.from_values
    rw [hp] at hfocus
    let b : Moment := { a with focus := .value u, machine := Change.identity.apply a.machine }
    -- The new value stands in the focus, and everything else is where it was.
    have hvalues : ∀ x ∈ b.values, x = u ∨ x.From a.values := by
      refine forall_mem_values.mpr ⟨?_, ?_, ?_, ?_⟩
      · exact List.forall_mem_singleton.mpr (.inl rfl)
      · exact fun q hq x hx => .inr (hpending q hq x hx)
      · exact fun c hc q hq x hx => .inr (hcallers c hc q hq x hx)
      · exact fun x hx => .inr (hheap x hx)
    have hfrom : v = u ∨ v.From a.values := by
      rcases hvalues w hw with rfl | hfrom
      · exact (hmakes.part hvw).imp_right fun hargs => hargs.trans hfocus
      · exact .inr (hfrom.part hvw)
    rcases hfrom with rfl | hplain | hhas
    · exact .inr (.inr ⟨⟨p, hp, hmakes⟩, rfl⟩)
    · exact .inl hplain
    · exact .inr (.inl hhas)

theorem Gains.nextSerial_le (h : a.Gains b) :
    a.machine.heap.nextSerial ≤ b.machine.heap.nextSerial := by
  cases h with
  | known hserial _ => exact Nat.le_of_eq hserial.symm
  | made _ heq =>
    subst heq
    exact Nat.le_succ _

theorem Makes.identity? (h : a.Makes w) : w.identity? = some ⟨a.machine.heap.nextSerial⟩ := by
  obtain ⟨p, -, hmakes⟩ := h
  exact hmakes.identity?

theorem Makes.isSignal (h : a.Makes w) : w.isSignal = false := by
  obtain ⟨p, -, hmakes⟩ := h
  exact hmakes.isSignal

theorem Makes.unique (hv : a.Makes v) (hw : a.Makes w) : w = v := by
  obtain ⟨p, hp, hmakes⟩ := hv
  obtain ⟨q, hq, hmakes'⟩ := hw
  cases hp.symm.trans hq
  exact hmakes.unique hmakes'

/-- A step that makes a value gives it to what waits. -/
theorem Makes.next_eq (h : a.Makes w) :
    a.next = { a with focus := .value w, machine := Change.identity.apply a.machine } := by
  obtain ⟨focus, env, pending, callers, m⟩ := a
  obtain ⟨p, rfl, hmakes⟩ := h
  cases hmakes with
  | array | hash | function | rest | push => rfl

/--
No value at the moment is a signal, none has an identity that is still to be given out, and no two
have the same one.
-/
structure Distinct (a : Moment) : Prop where
  isSignal : ∀ {v}, a.Has v → v.isSignal = false
  serial_lt : ∀ {v id}, a.Has v → v.identity? = some id →
    id.serial < a.machine.heap.nextSerial
  eq_of_identity? : ∀ {v w id}, a.Has v → a.Has w → v.identity? = some id →
    w.identity? = some id → v = w

/-- At the first moment, all values are plain. -/
theorem distinct_of_opens (ha : a.Opens) : a.Distinct := by
  obtain ⟨m, node, hm, rfl⟩ := ha
  have hplain : ∀ {v}, (start m ⟨0⟩ node).Has v → v.isPlain = true := by
    rintro v ⟨w, hw, hvw⟩
    rcases values_start m ⟨0⟩ node w hw with hplain | hmem
    · rcases Value.From.part (.inl hplain : w.From []) hvw with hplain | ⟨_, hnil, _⟩
      · exact hplain
      · cases hnil
    · rw [hm] at hmem
      cases hmem
  refine ⟨fun hv => Value.isSignal_of_isPlain (hplain hv), fun hv hid => ?_, fun hv _ hid _ => ?_⟩
  · rw [Value.identity?_of_isPlain (hplain hv)] at hid
    cases hid
  · rw [Value.identity?_of_isPlain (hplain hv)] at hid
    cases hid

/-- A value with an identity was there before the step, or it has the next identity. -/
theorem Gains.has_of_identity? (h : a.Gains b) (hv : b.Has v) {id : Identity}
    (hid : v.identity? = some id) :
    a.Has v ∨ a.Makes v ∧ id = ⟨a.machine.heap.nextSerial⟩ ∧
      b.machine.heap.nextSerial = a.machine.heap.nextSerial + 1 := by
  rcases h.has hv with hplain | hv | ⟨hmakes, hserial⟩
  · rw [Value.identity?_of_isPlain hplain] at hid
    cases hid
  · exact .inl hv
  · cases hmakes.identity?.symm.trans hid
    exact .inr ⟨hmakes, rfl, hserial⟩

/-- The value that is made gets an identity that no other value has. -/
theorem Distinct.gains (ha : a.Distinct) (h : a.Gains b) : b.Distinct where
  isSignal hv := by
    rcases h.has hv with hplain | hv | ⟨hmakes, -⟩
    · exact Value.isSignal_of_isPlain hplain
    · exact ha.isSignal hv
    · exact hmakes.isSignal
  serial_lt {v id} hv hid := by
    rcases h.has_of_identity? hv hid with hv | ⟨-, rfl, hserial⟩
    · exact Nat.lt_of_lt_of_le (ha.serial_lt hv hid) h.nextSerial_le
    · rw [hserial]
      exact Nat.lt_succ_self _
  eq_of_identity? {v w id} hv hw hid hid' := by
    rcases h.has_of_identity? hv hid with hv | ⟨hmakes, rfl, -⟩
    · rcases h.has_of_identity? hw hid' with hw | ⟨-, rfl, -⟩
      · exact ha.eq_of_identity? hv hw hid hid'
      · exact absurd (ha.serial_lt hv hid) (Nat.lt_irrefl _)
    · rcases h.has_of_identity? hw hid' with hw | ⟨hmakes', -, -⟩
      · exact absurd (ha.serial_lt hw hid') (Nat.lt_irrefl _)
      · exact hmakes'.unique hmakes

/-- The second moment has its values, and those that it shares with the first one are the same. -/
structure Continues (a b : Moment) : Prop where
  distinct : b.Distinct
  nextSerial_le : a.machine.heap.nextSerial ≤ b.machine.heap.nextSerial
  eq_of_identity? : ∀ {v w id}, a.Has v → b.Has w → v.identity? = some id →
    w.identity? = some id → v = w

theorem Continues.gains (ha : a.Distinct) (hab : a.Continues b) (h : b.Gains c) :
    a.Continues c where
  distinct := hab.distinct.gains h
  nextSerial_le := Nat.le_trans hab.nextSerial_le h.nextSerial_le
  eq_of_identity? {v w id} hv hw hid hid' := by
    rcases h.has_of_identity? hw hid' with hw | ⟨-, rfl, -⟩
    · exact hab.eq_of_identity? hv hw hid hid'
    · -- The identity of the value that is made was not given out yet at the first moment.
      exact absurd (ha.serial_lt hv hid) (Nat.not_lt.mpr hab.nextSerial_le)

theorem Distinct.continues (ha : a.Distinct) (h : a.Before b) : a.Continues b :=
  h.invariant (fun hgains hb => hb.gains ha hgains) ⟨ha, Nat.le_refl _, ha.eq_of_identity?⟩

theorem distinct_of_before (ha : a.Opens) (h : a.Before b) : b.Distinct :=
  ((distinct_of_opens ha).continues h).distinct

/-! ## Equality -/

variable (ha : a.Opens) (hab : a.Before b) (hbc : b.Before c)

include ha hab

/-- Every value of a session is equal to itself. -/
theorem evalBinary_self (hv : b.Has v) : evalBinary v .eq v = .ok (.boolean true) := by
  have hsignal := (distinct_of_before ha hab).isSignal hv
  rw [evalBinary_eq hsignal hsignal, Value.equal_self hsignal]

include hbc

/-- Arrays, hashes and functions of a session are equal only if they are the same. -/
theorem eq_of_evalBinary (hv : b.Has v) (hw : c.Has w) (hid : v.identity?.isSome = true)
    (h : evalBinary v .eq w = .ok (.boolean true) ∨ evalBinary w .eq v = .ok (.boolean true)) :
    v = w := by
  have hb := distinct_of_before ha hab
  have hc := hb.continues hbc
  have hv' := hb.isSignal hv
  have hw' := hc.distinct.isSignal hw
  have hsame : v.identity? = w.identity? := by
    rw [evalBinary_eq hv' hw', evalBinary_eq hw' hv'] at h
    rcases h with h | h
    · exact Value.identity?_of_equal (by simpa using h)
    · exact (Value.identity?_of_equal (by simpa using h)).symm
  obtain ⟨id, hid⟩ := Option.isSome_iff_exists.mp hid
  exact hc.eq_of_identity? hv hw hid (hsame.symm.trans hid)

/-- A value that is made is not equal to any that is there or was there before. -/
theorem Makes.differs (hw : c.Makes w) (hv : b.Has v) :
    evalBinary v .eq w = .ok (.boolean false) ∧ evalBinary w .eq v = .ok (.boolean false) := by
  have hb := distinct_of_before ha hab
  have hlt := (hb.continues hbc).nextSerial_le
  have hne : v.identity? ≠ w.identity? := by
    intro heq
    have hid : v.identity? = some ⟨c.machine.heap.nextSerial⟩ := heq.trans hw.identity?
    exact absurd (hb.serial_lt hv hid) (Nat.not_lt.mpr hlt)
  rw [evalBinary_eq (hb.isSignal hv) hw.isSignal, evalBinary_eq hw.isSignal (hb.isSignal hv)]
  have hvw : v.equal w = false := by
    rw [← Bool.not_eq_true]
    exact fun h => hne (Value.identity?_of_equal h)
  have hwv : w.equal v = false := by
    rw [← Bool.not_eq_true]
    exact fun h => hne (Value.identity?_of_equal h).symm
  rw [hvw, hwv]
  exact ⟨rfl, rfl⟩

end Moment

end Ember
