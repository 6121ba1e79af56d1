import Ember.Proofs.Eval.Printing
import Ember.Proofs.Eval.Stepwise

/-!
# Output is write-only

The calls of `puts` that an evaluation executes can be read off its moments (`Moment.putsCalls`):
whatever name the builtin goes by, however deep in calls it is reached, and whether or not the
evaluation ends early. A step prints the arguments of the call that it executes and nothing else
(`Moment.printer_next`), so what a run prints is what its calls of `puts` say, in order.

And which calls these are does not depend on where the lines go: changing the printer before a step
or after it comes to the same (`Moment.next_reprint`). So evaluations that differ in their printers
end in the same way, and a buffer has the same text put behind what was there
(`Machine.output_write_only`).
-/

namespace Ember

/-! ## Printed lines -/

/-- The lines that calls of `puts` print: one for each argument, in order. -/
def putsLines (calls : List (List Value)) : List String :=
  calls.flatten.map Value.render

/-- The text that calls of `puts` print. -/
def putsText (calls : List (List Value)) : String :=
  String.join ((putsLines calls).map (· ++ "\n"))

theorem putsLines_append (calls calls' : List (List Value)) :
    putsLines (calls ++ calls') = putsLines calls ++ putsLines calls' := by
  simp [putsLines]

namespace Printer

theorem printAll_append (lines lines' : List String) (p : Printer) :
    p.printAll (lines ++ lines') = (p.printAll lines).printAll lines' :=
  List.foldl_append

theorem printAll_silent (lines : List String) : silent.printAll lines = silent := by
  induction lines with
  | nil => rfl
  | cons line lines ih => exact ih

theorem printAll_buffer (old : String) (lines : List String) :
    (buffer old).printAll lines = buffer (old ++ String.join (lines.map (· ++ "\n"))) := by
  induction lines generalizing old with
  | nil => simp [printAll]
  | cons line lines ih =>
    show (buffer (old ++ line ++ "\n")).printAll lines = _
    rw [ih, List.map_cons, String.join_cons]
    simp only [String.append_assoc]

end Printer

/-- A silent printer lets lines be printed before or after. -/
theorem Eval.letsPrint_silent : LetsPrint fun _ => .silent := fun _ _ => rfl

/-! ## Calls of `puts` -/

/-- The arguments, if the action is a call of `puts`. -/
def Action.puts? : Action → Option (List Value)
  | .run .puts args => some args
  | _ => none

namespace Moment

/-- The arguments of the call of `puts` that the next step executes, if it executes one. -/
def puts? (a : Moment) : Option (List Value) :=
  match a.focus with
  | .act p => p.puts?
  | _ => none

/-- The calls of `puts` that so many steps execute, in order. -/
def putsCalls (a : Moment) : Nat → List (List Value)
  | 0 => []
  | k + 1 => a.puts?.toList ++ a.next.putsCalls k

/-- The moment with another printer. -/
def reprint (g : Printer → Printer) : Moment → Moment := onMachine (.reprint g)

end Moment

/-! ## Steps do not look at what was printed -/

open Eval

variable {g : Printer → Printer}

/-- An action looks at the printer only to print. -/
theorem Action.overlooks_effect (env : ScopeId) {p : Action} (hg : p.puts?.isSome → LetsPrint g) :
    Overlooks g (p.effect env) := by
  cases p with
  | array _ | hash _ | function _ => exact (Overlooks.allocate _).bind fun _ => .pure _
  | assign name v => exact (Overlooks.bindName env name v).bind fun _ => .pure _
  | run b args =>
    refine (overlooks_run ?_ args).bind fun _ => .pure _
    rintro rfl
    exact hg rfl
  | lookup _ _ => exact fun _ => rfl
  | call f scope frame args =>
    show Overlooks g (if f.arity ≠ args.length then _ else _)
    split
    · exact .throw _
    · exact (Overlooks.onHeap _).bind fun _ => .pure _
  | bind scope ps args frame body =>
    match ps, args with
    | [], _ | _ :: _, [] => exact .pure _
    | p :: ps, v :: vs =>
      show Overlooks g (if p.isMissing then _ else _)
      split
      · exact .throw _
      · exact (Overlooks.bindName scope p.name v).bind fun _ => .pure _

namespace Moment

variable {a : Moment}

theorem perform_reprint {p : Action} (hp : Overlooks g (p.effect a.env)) :
    (a.reprint g).perform p = (a.perform p).reprint g := by
  have heffect := hp a.machine
  cases hrun : p.effect a.env a.machine with
  | ok f m =>
    rw [hrun] at heffect
    rw [perform_of_ok hrun, perform_of_ok (a := a.reprint g) heffect]
    rfl
  | error u m =>
    rw [hrun] at heffect
    rw [perform_of_error hrun, perform_of_error (a := a.reprint g) heffect]
    rfl

/-- Whether a frame is pushed does not depend on the printer. -/
theorem enter_reprint (scope : ScopeId) (frame : CallFrame) (body : Block) :
    (a.reprint g).enter scope frame body = (a.enter scope frame body).reprint g := by
  have hcalls : (a.reprint g).machine.calls = a.machine.calls := rfl
  unfold enter
  rw [hcalls]
  cases a.machine.calls.push frame <;> rfl

/-- The printer may be changed before or after a step. -/
theorem next_reprint (hg : a.puts?.isSome → LetsPrint g) :
    (a.reprint g).next = a.next.reprint g := by
  refine next_onMachine (fun p hp => ?_) (fun scope frame body _ => ?_) fun _ => rfl
  · have hputs : a.puts? = p.puts? := by rw [puts?, hp]
    exact perform_reprint (Action.overlooks_effect a.env (hputs ▸ hg))
  · exact enter_reprint scope frame body

theorem focus_of_puts? {args : List Value} (h : a.puts? = some args) :
    a.focus = .act (.run .puts args) := by
  unfold puts? at h
  split at h
  · next p hp =>
    unfold Action.puts? at h
    split at h
    · cases h
      exact hp
    · cases h
  · cases h

/-- A step prints the arguments of the call of `puts` that it executes, and nothing else. -/
theorem printer_next (a : Moment) :
    a.next.machine.printer = a.machine.printer.printAll (putsLines a.puts?.toList) := by
  cases hputs : a.puts? with
  | none =>
    -- Replacing the printer by itself changes nothing, so it is still there after the step.
    have hnext : a.next = a.next.reprint fun _ => a.machine.printer :=
      next_reprint (a := a) (g := fun _ => a.machine.printer) (by simp [hputs])
    rw [hnext]
    rfl
  | some args =>
    have heffect : (Action.run .puts args).effect a.env a.machine =
        .ok (.value .null)
          { a.machine with printer := a.machine.printer.printAll (args.map Value.render) } :=
      bind_of_ok (congrFun (Builtin.run_puts args) a.machine) fun v => pure (Focus.value v)
    have hnext : a.next = a.perform (.run .puts args) := by
      unfold next
      rw [focus_of_puts? hputs]
    rw [hnext, perform_of_ok heffect]
    simp [putsLines]

theorem puts?_reprint (g : Printer → Printer) (a : Moment) : (a.reprint g).puts? = a.puts? := rfl

/-! ## Runs -/

/-- What a run prints is what its calls of `puts` say. -/
theorem printer_iterate (a : Moment) (k : Nat) :
    (next^[k] a).machine.printer = a.machine.printer.printAll (putsLines (a.putsCalls k)) := by
  induction k generalizing a with
  | zero => rfl
  | succ k ih =>
    rw [Function.iterate_succ_apply, ih, printer_next, putsCalls, putsLines_append,
      Printer.printAll_append]

theorem iterate_reprint (hg : LetsPrint g) (a : Moment) (k : Nat) :
    next^[k] (a.reprint g) = (next^[k] a).reprint g :=
  iterate_onMachine k fun _ _ => next_reprint fun _ => hg

/-- A run executes the same calls of `puts`, wherever the lines go. -/
theorem putsCalls_reprint (hg : LetsPrint g) (a : Moment) (k : Nat) :
    (a.reprint g).putsCalls k = a.putsCalls k := by
  induction k generalizing a with
  | zero => rfl
  | succ k ih => rw [putsCalls, putsCalls, next_reprint fun _ => hg, ih, puts?_reprint]

theorem putsCalls_add (a : Moment) (j i : Nat) :
    a.putsCalls (j + i) = a.putsCalls j ++ (next^[j] a).putsCalls i := by
  induction j generalizing a with
  | zero => rw [Nat.zero_add]; rfl
  | succ j ih =>
    rw [Nat.succ_add, putsCalls, putsCalls, ih, List.append_assoc, Function.iterate_succ_apply]

/-- Once an evaluation has ended, it executes no more calls. -/
theorem putsCalls_of_outcome? {r : Outcome × Machine} (h : a.outcome? = some r) (k : Nat) :
    a.putsCalls k = [] := by
  have hputs : a.puts? = none := by
    obtain ⟨answer, hfocus, -⟩ := exists_of_outcome? h
    unfold puts?
    rw [hfocus]
  induction k with
  | zero => rfl
  | succ k ih => rw [putsCalls, hputs, next_of_outcome? h, ih]; rfl

theorem putsCalls_of_le {j k : Nat} {r : Outcome × Machine}
    (h : (next^[j] a).outcome? = some r) (hle : j ≤ k) : a.putsCalls k = a.putsCalls j := by
  obtain ⟨i, rfl⟩ := Nat.exists_eq_add_of_le hle
  rw [putsCalls_add, putsCalls_of_outcome? h, List.append_nil]

end Moment

/-! ## Evaluations -/

namespace Machine

variable {m n : Machine} {env : ScopeId} {node : Node} {budget : Nat} {o : Outcome}
  {calls calls' : List (List Value)}

/-- By its end, the evaluation has executed these calls of `puts`, in this order. -/
def Executes (m : Machine) (env : ScopeId) (node : Node) (calls : List (List Value)) : Prop :=
  ∃ k, (Moment.next^[k] (.start m env node)).outcome?.isSome ∧
    (Moment.start m env node).putsCalls k = calls

theorem Executes.unique (h : m.Executes env node calls) (h' : m.Executes env node calls') :
    calls' = calls := by
  obtain ⟨j, hj, rfl⟩ := h
  obtain ⟨k, hk, rfl⟩ := h'
  obtain ⟨_, hj⟩ := Option.isSome_iff_exists.mp hj
  obtain ⟨_, hk⟩ := Option.isSome_iff_exists.mp hk
  rcases Nat.le_total j k with hle | hle
  · exact Moment.putsCalls_of_le hj hle
  · exact (Moment.putsCalls_of_le hk hle).symm

theorem executes_reprint_iff (hg : LetsPrint g) :
    (m.reprint g).Executes env node calls ↔ m.Executes env node calls := by
  have hstart : Moment.start (m.reprint g) env node = (Moment.start m env node).reprint g :=
    Moment.start_onMachine _ _ _ _
  have hended : ∀ a : Moment, (a.reprint g).outcome?.isSome = a.outcome?.isSome := fun a => by
    rw [Moment.reprint, Moment.outcome?_onMachine, Option.isSome_map]
  simp only [Executes, hstart, Moment.iterate_reprint hg, hended, Moment.putsCalls_reprint hg]

/-- An evaluation executes the same calls of `puts`, wherever their lines go. -/
theorem Executes.withPrinter (h : m.Executes env node calls) (p : Printer) :
    { m with printer := p }.Executes env node calls := by
  rw [← executes_reprint_iff letsPrint_silent] at h ⊢
  exact h

/-- The lines of the calls that were executed are there at the end, behind what was there before. -/
theorem Finishes.printer_eq (h : m.Finishes env node o n) (hcalls : m.Executes env node calls) :
    n.printer = m.printer.printAll (putsLines calls) := by
  obtain ⟨k, hk⟩ := h
  obtain rfl := Executes.unique hcalls ⟨k, by rw [hk]; rfl, rfl⟩
  rw [Moment.machine_of_outcome? hk, Moment.printer_iterate, Moment.machine_start]

/-- With another printer, an evaluation ends in the same way and leaves the same but for it. -/
theorem exists_evalWith_printer (h : m.evalWith budget env node = (o, n)) (p : Printer) :
    ∃ q, { m with printer := p }.evalWith budget env node = (o, { n with printer := q }) := by
  rcases hrun : { m with printer := p }.evalWith budget env node with ⟨o', heap, calls, q⟩
  -- Both are the same evaluation once they are silent.
  have hsilent := evalWith_reprint letsPrint_silent h
  have hsilent' : (m.reprint fun _ => .silent).evalWith budget env node = _ :=
    evalWith_reprint (m := { m with printer := p }) letsPrint_silent hrun
  cases hsilent.symm.trans hsilent'
  exact ⟨q, hrun⟩

/--
Output is write-only. An evaluation that ends executes certain calls of `puts`, in a certain order,
whatever the printer. With a silent printer it ends in the same way and leaves the same heap and
call stack. With a buffer it does so too, and behind what was in the buffer there is a line for each
argument of those calls, in their order.
-/
theorem output_write_only (hm : m.heap.Reached) (henv : m.heap.Has env)
    (h : m.evalWith budget env node = (o, n)) (ho : o ≠ .exhausted) :
    ∃ calls : List (List Value),
      (∀ p calls', { m with printer := p }.Executes env node calls' ↔ calls' = calls) ∧
      { m with printer := .silent }.evalWith budget env node = (o, { n with printer := .silent }) ∧
      ∀ old, { m with printer := .buffer old }.evalWith budget env node =
        (o, { n with printer := .buffer (old ++ putsText calls) }) := by
  obtain ⟨k, hk⟩ := finishes_of_evalWith hm.closed henv h ho
  have hcalls : m.Executes env node ((Moment.start m env node).putsCalls k) :=
    ⟨k, by rw [hk]; rfl, rfl⟩
  generalize (Moment.start m env node).putsCalls k = calls at hcalls
  have hrun : ∀ p, { m with printer := p }.evalWith budget env node =
      (o, { n with printer := p.printAll (putsLines calls) }) := by
    intro p
    obtain ⟨q, hq⟩ := exists_evalWith_printer h p
    have hfinishes := finishes_of_evalWith (m := { m with printer := p }) hm.closed henv hq ho
    rw [hq, ← hfinishes.printer_eq (hcalls.withPrinter p)]
  refine ⟨calls, fun p calls' => ?_, ?_, fun old => ?_⟩
  · constructor
    · exact (hcalls.withPrinter p).unique
    · rintro rfl
      exact hcalls.withPrinter p
  · rw [hrun, Printer.printAll_silent]
  · rw [hrun, Printer.printAll_buffer]
    rfl

end Machine

/-- `puts("a", puts("b")); let say = puts; say("c"); return 3; puts("d");` -/
def Node.talking : Node :=
  let string (s : String) : Expr := .string (.synthetic .string s) s
  let puts : Expr := .identifier (.ofToken (.synthetic .ident "puts"))
  .program
    ⟨[.ofExpr (.callOf "puts" [string "a", .callOf "puts" [string "b"]]),
      .letBinding (.synthetic .kwLet "let") (.ofToken (.synthetic .ident "say")) puts,
      .ofExpr (.callOf "say" [string "c"]),
      .returning (.synthetic .kwReturn "return") (.integer (.synthetic .int "3") 3),
      .ofExpr (.callOf "puts" [string "d"])], []⟩

/-- An inner call prints before an outer one, an alias prints too, and nothing after a `return`. -/
theorem Machine.output_write_only_talking :
    let m : Machine := ⟨(Heap.empty.newScope none).2, .empty (some 4), .fresh⟩
    let left (p : Printer) : Machine := ⟨m.heap.set ⟨0⟩ "say" (.builtin .puts), m.calls, p⟩
    { m with printer := .silent }.evalWith 4 ⟨0⟩ .talking = (.value (.integer 3), left .silent) ∧
      ∀ old, { m with printer := .buffer old }.evalWith 4 ⟨0⟩ .talking =
        (.value (.integer 3), left (.buffer (old ++ "b\na\nnull\nc\n"))) := by
  intro m left
  have hreached : m.heap.Reached := .newScope nofun .empty
  have hrun : m.evalWith 4 ⟨0⟩ .talking =
      (.value (.integer 3), left (.buffer "b\na\nnull\nc\n")) := by
    with_unfolding_all rfl
  obtain ⟨calls, -, hsilent, hbuffer⟩ := output_write_only hreached (by decide) hrun nofun
  have htext : "" ++ putsText calls = "b\na\nnull\nc\n" := by
    have hends := (hbuffer "").symm.trans hrun
    injection hends with _ hleft
    injection hleft with _ _ hprinter
    injection hprinter
  rw [String.empty_append] at htext
  rw [htext] at hbuffer
  exact ⟨hsilent, hbuffer⟩

end Ember
