import Mathlib.Data.Nat.Find
import Ember.Proofs.Eval.Balance
import Ember.Proofs.Eval.Output

/-!
# What the limit on nested calls does

With a limit, every evaluation ends (`Machine.exists_finishes`): the budget that stands for the
limit is not used up, and the steps follow the interpreter.

And all that a limit does is cut evaluations off (`Machine.limit_cuts_off`). Two evaluations that
differ in their limits go through the same moments, but for the limit, until one attempts a call
that its limit has no room for (`Moment.next_withLimit`). From there on that one only unwinds, and
prints no more. And nothing else makes a fault of the kind that it ends in
(`Moment.ne_callDepth_next`).
-/

namespace Ember

/-! ## Evaluations end -/

namespace Machine

variable {m : Machine} {env : ScopeId}

/-- With a limit on nested calls, the steps lead to the answer of the interpreter. -/
theorem finishes_eval (hm : m.heap.Closed) (henv : m.heap.Has env) {limit : Nat}
    (hlimit : m.calls.limit = some limit) (node : Node) :
    m.Finishes env node (m.eval env node).1 (m.eval env node).2 :=
  finishes_of_evalWith hm henv rfl (eval_ne_exhausted hlimit env node)

/--
With a limit on nested calls, the evaluation of any node in a scope of a reached heap ends after
finitely many steps, in a value or a fault. That is the answer of the interpreter.
-/
theorem exists_finishes (hm : m.heap.Reached) (henv : m.heap.Has env) {limit : Nat}
    (hlimit : m.calls.limit = some limit) (node : Node) :
    ∃ o n, m.Finishes env node o n ∧ m.eval env node = (o, n) ∧
      ((∃ v, o = .value v) ∨ ∃ f, o = .fault f) := by
  refine ⟨_, _, finishes_eval hm.closed henv hlimit node, rfl, ?_⟩
  cases h : (m.eval env node).1 with
  | value v => exact .inl ⟨v, rfl⟩
  | fault f => exact .inr ⟨f, rfl⟩
  | exhausted => exact absurd h (eval_ne_exhausted hlimit env node)

/-- Two functions that call each other without end are stopped by the limit. -/
theorem exists_finishes_endless :
    ∃ n, (endless (some 3)).Finishes ⟨0⟩ .endless (.fault (.callDepth 3)) n := by
  obtain ⟨o, n, hfinishes, heval, -⟩ :=
    exists_finishes (m := endless (some 3)) Heap.reached_endless Heap.has_endless rfl .endless
  have hfault := eval_endless
  rw [heval] at hfault
  exact ⟨n, hfault ▸ hfinishes⟩

end Machine

/-! ## Faults -/

section Faults

variable {f : Fault}

theorem atBoundary_eq_fault_iff {r : Except Unwind Value} :
    atBoundary r = .error (.fault f) ↔ r = .error (.fault f) := by
  cases r with
  | ok v => simp [atBoundary]
  | error u => cases u <;> simp [atBoundary]

theorem Pending.unwind_eq_fault_iff {p : Pending} {u : Unwind} :
    p.unwind u = .unwind (.fault f) ↔ u = .fault f := by
  cases p with
  | program => simp [Pending.unwind, atBoundary_eq_fault_iff]
  | _ => simp [Pending.unwind]

theorem Focus.InTree.ne_callDepth {focus : Focus} (h : focus.InTree) (d : Nat) :
    focus ≠ .unwind (.fault (.callDepth d)) := by
  cases h <;> exact nofun

end Faults

/-! ## Limits apart -/

namespace CallStack

variable {s : CallStack} {n : Nat}

/-- A frame is pushed where the limit leaves room for it. -/
theorem push_of_room (h : ∀ limit, s.limit = some limit → s.depth < limit) (frame : CallFrame) :
    s.push frame = .ok { s with frames := s.frames.push frame } := by
  unfold push
  split
  · rfl
  · next limit hlimit => rw [if_neg (Nat.not_le_of_lt (h limit hlimit))]

/-- Below its limit a stack has room. -/
theorem Limited.room (hs : s.Limited n) (hne : s.depth ≠ n) :
    ∀ limit, s.limit = some limit → s.depth < limit := by
  intro limit hlimit
  cases hs.limit_eq.symm.trans hlimit
  exact Nat.lt_of_le_of_ne hs.depth_le hne

end CallStack

/-- The machine with another limit on nested calls. -/
def Machine.withLimit (limit : Option Nat) (m : Machine) : Machine :=
  { m with calls := { m.calls with limit } }

namespace Moment

variable {a : Moment} {n : Nat} {limit : Option Nat}

/-- The moment with another limit on nested calls. -/
def withLimit (limit : Option Nat) (a : Moment) : Moment :=
  { a with machine := a.machine.withLimit limit }

/-- A call is attempted with `n` frames on the stack. -/
def CallsAt (n : Nat) (a : Moment) : Prop :=
  ∃ scope frame body, a.focus = .enter scope frame body ∧ a.machine.calls.depth = n

/-- A call that is attempted below the limit has room there, and below every greater limit. -/
theorem enter_withLimit {scope : ScopeId} {frame : CallFrame} {body : Block}
    (ha : a.machine.calls.Limited n) (hne : a.machine.calls.depth ≠ n)
    (hle : ∀ l, limit = some l → n ≤ l) :
    (a.withLimit limit).enter scope frame body = (a.enter scope frame body).withLimit limit := by
  have hroom : ∀ l, limit = some l → a.machine.calls.depth < l := fun l hl =>
    Nat.lt_of_lt_of_le (ha.room hne n ha.limit_eq) (hle l hl)
  have hpush := CallStack.push_of_room (ha.room hne) frame
  have hpush' : (a.withLimit limit).machine.calls.push frame = _ :=
    CallStack.push_of_room hroom frame
  simp only [enter, hpush, hpush']
  rfl

/-- Evaluations with two limits stay together where the smaller limit has room. -/
theorem next_withLimit (hlimited : a.machine.calls.Limited n)
    (hle : ∀ l, limit = some l → n ≤ l) (ha : ¬a.CallsAt n) :
    (a.withLimit limit).next = a.next.withLimit limit := by
  refine next_onMachine (f := .withLimit limit) (fun p _ => ?_) (fun scope frame body hf => ?_)
    fun _ => rfl
  · obtain ⟨f, c, -, heq⟩ := exists_perform_eq p a.env a.machine.heap
    rw [heq a rfl rfl, heq (a.onMachine (.withLimit limit)) rfl rfl]
    rfl
  · exact enter_withLimit hlimited (fun hn => ha ⟨scope, frame, body, hf, hn⟩) hle

/-- Until a call is attempted that the smaller limit refuses, the moments are the same. -/
theorem iterate_withLimit (hlimited : a.machine.calls.Limited n)
    (hle : ∀ l, limit = some l → n ≤ l) (k : Nat) (hcalls : ∀ j < k, ¬(next^[j] a).CallsAt n) :
    next^[k] (a.withLimit limit) = (next^[k] a).withLimit limit :=
  iterate_onMachine k fun j hj => next_withLimit (limited_iterate hlimited j) hle (hcalls j hj)

theorem withLimit_start (m : Machine) (env : ScopeId) (node : Node) :
    (start m env node).withLimit limit = start (m.withLimit limit) env node :=
  (start_onMachine _ _ _ _).symm

theorem withLimit_outcome? {o : Outcome} {l : Machine} (h : a.outcome? = some (o, l)) :
    (a.withLimit limit).outcome? = some (o, l.withLimit limit) :=
  (outcome?_onMachine (.withLimit limit) a).trans (by rw [h]; rfl)

/-! ## Refused calls -/

/-- A fault unwinds to the end, and nothing more is printed. -/
theorem next_of_fault {f : Fault} (ha : a.focus = .unwind (.fault f)) :
    a.next.focus = .unwind (.fault f) ∧ a.next.machine.printer = a.machine.printer := by
  obtain ⟨focus, env, pending, callers, m⟩ := a
  cases ha
  cases pending with
  | cons p ps => cases p <;> exact ⟨rfl, rfl⟩
  | nil => cases callers <;> exact ⟨rfl, rfl⟩

theorem iterate_next_of_fault {f : Fault} (ha : a.focus = .unwind (.fault f)) (k : Nat) :
    (next^[k] a).focus = .unwind (.fault f) ∧ (next^[k] a).machine.printer = a.machine.printer := by
  induction k with
  | zero => exact ⟨ha, rfl⟩
  | succ k ih =>
    rw [Function.iterate_succ_apply']
    obtain ⟨hfocus, hprinter⟩ := next_of_fault ih.1
    exact ⟨hfocus, hprinter.trans ih.2⟩

theorem CallsAt.outcome?_eq_none (ha : a.CallsAt n) : a.outcome? = none := by
  obtain ⟨focus, env, pending, callers, m⟩ := a
  obtain ⟨scope, frame, body, rfl, -⟩ := ha
  rfl

/-- The call that the limit has no room for ends in the fault that names the limit. -/
theorem CallsAt.next_eq (ha : a.CallsAt n) (hlimit : a.machine.calls.limit = some n) :
    a.next = { a with focus := .unwind (.fault (.callDepth n)) } := by
  obtain ⟨focus, env, pending, callers, m⟩ := a
  obtain ⟨scope, frame, body, rfl, hdepth⟩ := ha
  have hpush : m.calls.push frame = .error (.callDepth n) := by
    have hlimit' : m.calls.limit = some n := hlimit
    unfold CallStack.push
    rw [hlimit']
    exact if_pos (Nat.le_of_eq hdepth.symm)
  show enter scope frame body _ = _
  simp only [enter, hpush]

/-- Nothing else makes a fault of that kind. -/
theorem ne_callDepth_next (hlimited : a.machine.calls.Limited n) (ha : ¬a.CallsAt n)
    (hfocus : ∀ d, a.focus ≠ .unwind (.fault (.callDepth d))) (d : Nat) :
    a.next.focus ≠ .unwind (.fault (.callDepth d)) := by
  unfold next
  split
  · next t _ => exact (t.inTree_first a.env).ne_callDepth d
  · next p _ =>
    obtain ⟨f, c, hdoes, heq⟩ := exists_perform_eq p a.env a.machine.heap
    rw [heq a rfl rfl]
    cases hdoes <;> exact nofun
  · next scope frame body hf =>
    have hne : a.machine.calls.depth ≠ n := fun hn => ha ⟨scope, frame, body, hf, hn⟩
    -- A call is refused for want of room only.
    simp only [enter, CallStack.push_of_room (hlimited.room hne) frame]
    exact nofun
  · next r hr =>
    have hr' : ∀ d, r ≠ .error (.fault (.callDepth d)) := by
      rintro d rfl
      exact hfocus d hr
    split
    · next p ps _ =>
      unfold resume
      split
      · next v => exact (p.inTree_resume v).ne_callDepth d
      · next u => exact fun h => hr' d (congrArg Except.error (Pending.unwind_eq_fault_iff.mp h))
    · unfold leave
      split
      · rw [hr]
        exact fun h => hr' d (Focus.ended.inj h)
      · exact fun h => hr' d (atBoundary_eq_fault_iff.mp (Focus.ended.inj h))

/-- Until a call is refused, no fault is one of that kind. -/
theorem ne_callDepth_iterate (hlimited : a.machine.calls.Limited n)
    (hfocus : ∀ d, a.focus ≠ .unwind (.fault (.callDepth d))) (k : Nat)
    (hcalls : ∀ j < k, ¬(next^[j] a).CallsAt n) (d : Nat) :
    (next^[k] a).focus ≠ .unwind (.fault (.callDepth d)) := by
  induction k generalizing d with
  | zero => exact hfocus d
  | succ k ih =>
    rw [Function.iterate_succ_apply']
    exact ne_callDepth_next (limited_iterate hlimited k) (hcalls k (Nat.lt_succ_self k))
      (ih fun j hj => hcalls j (Nat.lt_succ_of_lt hj)) d

theorem ne_callDepth_start (m : Machine) (env : ScopeId) (node : Node) (d : Nat) :
    (start m env node).focus ≠ .unwind (.fault (.callDepth d)) := by
  cases node <;> exact nofun

/-- An evaluation that is over has ended in a fault if that is what it unwinds with. -/
theorem outcome?_eq_fault_iff {o : Outcome} {l : Machine} {f : Fault}
    (h : a.outcome? = some (o, l)) : o = .fault f ↔ a.focus = .unwind (.fault f) := by
  obtain ⟨answer, hfocus, -, -, heq⟩ := exists_of_outcome? h
  obtain ⟨rfl, -⟩ := Prod.mk.inj heq
  rw [hfocus]
  cases answer with
  | ok v => simp [result]
  | error u => cases u <;> simp [result]

/-- The first call that a limit refuses, if there is one before the end. -/
theorem exists_first_callsAt {k : Nat} (h : ∃ j < k, (next^[j] a).CallsAt n) :
    ∃ j < k, (next^[j] a).CallsAt n ∧ ∀ i < j, ¬(next^[i] a).CallsAt n := by
  classical
  obtain ⟨hlt, hat⟩ := Nat.find_spec h
  exact ⟨Nat.find h, hlt, hat, fun i hi hc => Nat.find_min h hi ⟨Nat.lt_trans hi hlt, hc⟩⟩

/-- Behind a call that is refused there is only its fault, and what was printed by then. -/
theorem CallsAt.end_eq {j k : Nat} (hj : (next^[j] a).CallsAt n) (hjk : j < k)
    (hlimited : a.machine.calls.Limited n) {o : Outcome} {l : Machine}
    (hk : (next^[k] a).outcome? = some (o, l)) :
    o = .fault (.callDepth n) ∧ l.printer = (next^[j] a).machine.printer := by
  have hnext := hj.next_eq (limited_iterate hlimited j).limit_eq
  obtain ⟨i, rfl⟩ := Nat.exists_eq_add_of_lt hjk
  have hend : next^[j + i + 1] a = next^[i] (next^[j] a).next := by
    rw [← Function.iterate_succ_apply' next j a, ← Function.iterate_add_apply]
    congr 1
    omega
  have hfocus : (next^[j] a).next.focus = .unwind (.fault (.callDepth n)) := by rw [hnext]
  obtain ⟨hfault, hprinter⟩ := iterate_next_of_fault hfocus i
  rw [hend] at hk
  refine ⟨(outcome?_eq_fault_iff hk).mpr hfault, ?_⟩
  rw [machine_of_outcome? hk, hprinter, hnext]

/--
An evaluation with a limit ends as it does with more room, or a call is refused at a moment that the
one with more room has too. Then it ends in that fault, and has printed what was printed by then.
-/
theorem same_or_refused (hlimited : a.machine.calls.Limited n)
    (hle : ∀ l, limit = some l → n ≤ l) (hfocus : ∀ d, a.focus ≠ .unwind (.fault (.callDepth d)))
    {k : Nat} {o : Outcome} {l : Machine} (hk : (next^[k] a).outcome? = some (o, l)) :
    ((∀ d, o ≠ .fault (.callDepth d)) ∧
        (next^[k] (a.withLimit limit)).outcome? = some (o, l.withLimit limit)) ∨
      ∃ j, (next^[j] a).CallsAt n ∧ next^[j] (a.withLimit limit) = (next^[j] a).withLimit limit ∧
        o = .fault (.callDepth n) ∧ l.printer = (next^[j] a).machine.printer := by
  by_cases hrefused : ∃ j < k, (next^[j] a).CallsAt n
  · obtain ⟨j, hjk, hj, hbefore⟩ := exists_first_callsAt hrefused
    exact .inr ⟨j, hj, iterate_withLimit hlimited hle j hbefore, hj.end_eq hjk hlimited hk⟩
  · have hbefore : ∀ j < k, ¬(next^[j] a).CallsAt n := fun j hj hc => hrefused ⟨j, hj, hc⟩
    refine .inl ⟨fun d ho => ?_, ?_⟩
    · have hfault := (outcome?_eq_fault_iff hk).mp ho
      exact ne_callDepth_iterate hlimited hfocus k hbefore d hfault
    · rw [iterate_withLimit hlimited hle k hbefore]
      exact withLimit_outcome? hk

/-! ## Printed text -/

/-- What steps print comes behind the text that is there. -/
theorem exists_text_iterate (a : Moment) (k : Nat) :
    ∃ rest, (next^[k] a).machine.printer.text = a.machine.printer.text ++ rest := by
  rw [printer_iterate]
  exact Printer.exists_text_printAll _ _

/-- An evaluation that is over has printed what it had printed by a moment that is not the end. -/
theorem exists_text_of_outcome? {j k : Nat} {r : Outcome × Machine}
    (hk : (next^[k] a).outcome? = some r) (hj : (next^[j] a).outcome? = none) :
    ∃ rest, r.2.printer.text = (next^[j] a).machine.printer.text ++ rest := by
  obtain ⟨o, l⟩ := r
  have hjk : j ≤ k := by
    by_contra hlt
    rw [iterate_of_le hk (by omega), hk] at hj
    cases hj
  obtain ⟨i, rfl⟩ := Nat.exists_eq_add_of_le' hjk
  rw [machine_of_outcome? hk, Function.iterate_add_apply]
  exact exists_text_iterate (next^[j] a) i

end Moment

/--
A node is evaluated in a scope of a reached heap with the limit `n`, and again with a greater limit
or with none. With a limit the evaluation ends. Where the other one ends too, and the limit `n` was
not exceeded, the two have the same outcome, heap and printed text. If it was exceeded, the fault
names `n`, the other evaluation prints what was printed and goes on behind it, and it too attempts a
call with `n` frames on the stack.
-/
theorem Machine.limit_cuts_off {m : Machine} {env : ScopeId} (hm : m.heap.Reached)
    (henv : m.heap.Has env) {n : Nat} (hlimit : m.calls.limit = some n) (hdepth : m.calls.depth ≤ n)
    {limit : Option Nat} (hle : ∀ l, limit = some l → n ≤ l) (node : Node) :
    (m.eval env node).1 ≠ .exhausted ∧
      (limit ≠ none → ((m.withLimit limit).eval env node).1 ≠ .exhausted) ∧
      ∀ budget, ((m.withLimit limit).evalWith budget env node).1 ≠ .exhausted →
        let r := m.eval env node
        let r' := (m.withLimit limit).evalWith budget env node
        ((∀ d, r.1 ≠ .fault (.callDepth d)) →
          r'.1 = r.1 ∧ r'.2.heap = r.2.heap ∧ r'.2.printer = r.2.printer) ∧
        ∀ d, r.1 = .fault (.callDepth d) →
          d = n ∧ (∃ rest, r'.2.printer.text = r.2.printer.text ++ rest) ∧
          ∃ k, (Moment.next^[k] (.start (m.withLimit limit) env node)).CallsAt n := by
  refine ⟨eval_ne_exhausted hlimit env node, ?_, fun budget hends => ?_⟩
  · intro hsome
    obtain ⟨l, rfl⟩ := Option.ne_none_iff_exists'.mp hsome
    exact eval_ne_exhausted rfl env node
  intro r r'
  obtain ⟨k, hk⟩ := finishes_eval hm.closed henv hlimit node
  have hfinishes' := finishes_of_evalWith (m := m.withLimit limit) hm.closed henv rfl hends
  obtain ⟨k', hk'⟩ := hfinishes'
  have hlimited : (Moment.start m env node).machine.calls.Limited n := by
    rw [Moment.machine_start]
    exact ⟨hlimit, hdepth⟩
  have hcases :=
    Moment.same_or_refused hlimited hle (Moment.ne_callDepth_start m env node) hk
  rw [Moment.withLimit_start] at hcases
  -- Either the two stay together up to the end, or the smaller limit refuses a call on the way.
  rcases hcases with ⟨hne, hsame⟩ | ⟨j, hj, htogether, hfault, hprinter⟩
  · obtain ⟨houtcome, hleft⟩ := Finishes.unique ⟨k, hsame⟩ ⟨k', hk'⟩
    refine ⟨fun _ => ⟨houtcome, ?_⟩, fun d hd => absurd hd (hne d)⟩
    have hleft' : r'.2 = r.2.withLimit limit := hleft
    rw [hleft']
    exact ⟨rfl, rfl⟩
  · refine ⟨fun hne => absurd hfault (hne n), fun d hd => ?_⟩
    have hj' : (Moment.next^[j] (.start (m.withLimit limit) env node)).CallsAt n := by
      rw [htogether]
      exact hj
    obtain ⟨rest, hrest⟩ := Moment.exists_text_of_outcome? hk' hj'.outcome?_eq_none
    rw [htogether] at hrest
    have hdn : d = n := by
      cases hd.symm.trans hfault
      rfl
    refine ⟨hdn, ⟨rest, ?_⟩, j, hj'⟩
    rw [hprinter]
    exact hrest

/-- Above a frame that is there, three calls are refused and five are not. -/
theorem Machine.limit_cuts_off_endless :
    let r := (endless (some 3)).eval ⟨0⟩ .endless
    let wider := (endless (some 3)).withLimit (some 5)
    r.1 = .fault (.callDepth 3) ∧ r.2.printer = .buffer "g\nf\n" ∧
      (∃ rest, (wider.eval ⟨0⟩ .endless).2.printer.text = r.2.printer.text ++ rest) ∧
      ∃ k, (Moment.next^[k] (.start wider ⟨0⟩ .endless)).CallsAt 3 := by
  have hprinter : ((endless (some 3)).eval ⟨0⟩ .endless).2.printer = .buffer "g\nf\n" := by
    with_unfolding_all rfl
  have hle : ∀ l, some 5 = some l → 3 ≤ l := by
    rintro _ ⟨⟩
    decide
  obtain ⟨-, hends, hruns⟩ := limit_cuts_off (m := endless (some 3)) Heap.reached_endless
    Heap.has_endless rfl (by decide) hle .endless
  exact ⟨eval_endless, hprinter, ((hruns _ (hends (Option.some_ne_none 5))).2 3 eval_endless).2⟩

end Ember
