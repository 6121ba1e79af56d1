import Ember.Proofs.Canonical.Reparse
import Ember.Proofs.Eval.Tokens

/-!
# The canonical text means what the program means

The text of a program without placeholders is parsed to the same statements but for their tokens,
and evaluation does not look at tokens. So whoever runs the text sees what the program does
(`Program.ends_render`). That holds of functions too: a function that is printed has the text of its
literal, which is the same in both programs.
-/

namespace Ember

namespace Program

variable {p : Program}

/-- Within the limit on nesting, the text is parsed to the statements of the program. -/
theorem statements_ofSource_render (hp : ∀ s ∈ p.statements, s.Writable)
    (hnesting : ∀ d ∈ (ofSource p.render).diagnostics, d.reason ≠ .nestedTooDeeply maxNesting) :
    (ofSource p.render).diagnostics = [] ∧
      p.statements.map Stmt.bare = (ofSource p.render).statements.map Stmt.bare := by
  obtain ⟨hwithin, hbeyond⟩ := ofSource_render_of_writable hp
  have hlevels : ∀ s ∈ p.statements, s.levels ≤ maxNesting := by
    intro s hs
    refine Nat.le_of_not_lt fun hlt => ?_
    obtain ⟨d, hd, hreason⟩ := hbeyond ⟨s, hs, hlt⟩
    exact hnesting d hd hreason
  obtain ⟨ss, hparse, hbare⟩ := hwithin hlevels
  rw [hparse]
  exact ⟨rfl, hbare.symm⟩

/--
The text of a program of `let`, `return` and expression statements without placeholders is read back
without a diagnostic, if it does not nest too deeply. With every limit on nested calls, and without
one, the evaluation of the program ends on a fresh machine exactly if that of its text does. Both
come to values of the same type and text, to the same error message or to the same fault; they print
the same and bind the same global names.
-/
theorem ends_render (hp : ∀ s ∈ p.statements, s.Writable)
    (hnesting : ∀ d ∈ (ofSource p.render).diagnostics, d.reason ≠ .nestedTooDeeply maxNesting)
    (limit : Option Nat) :
    (ofSource p.render).diagnostics = [] ∧
      ((∃ o n, p.Ends limit o n) ↔ ∃ o n, (ofSource p.render).Ends limit o n) ∧
      ∀ o n o' n', p.Ends limit o n → (ofSource p.render).Ends limit o' n' →
        o.Alike o' ∧ n.printer = n'.printer ∧
          n.heap.names (Machine.fresh limit).1 = n'.heap.names (Machine.fresh limit).1 := by
  obtain ⟨hdiagnostics, hbare⟩ := statements_ofSource_render hp hnesting
  exact ⟨hdiagnostics, ends_alike hbare limit⟩

/-- A function that is printed and called with itself has the text of its literal in both. -/
theorem ends_render_identity :
    let t := Token.endOfInput
    let f : Identifier := ⟨t, "f"⟩
    let x : Identifier := ⟨t, "x"⟩
    let literal : FunctionLiteral := ⟨t, [x], ⟨t, [.returning t (.identifier x)]⟩⟩
    let puts := Stmt.expression t (.call t (.identifier ⟨t, "puts"⟩) [.identifier f])
    let call := Stmt.expression t (.call t (.identifier f) [.identifier f])
    let p : Program := ⟨[.letBinding t f (.function literal), puts, call], []⟩
    (∀ s ∈ p.statements, s.Writable) ∧
      (∀ d ∈ (ofSource p.render).diagnostics, d.reason ≠ .nestedTooDeeply maxNesting) ∧
      ∃ v n, (ofSource p.render).Ends (some 1) (.value v) n ∧ v.type = .function ∧
        v.render = "fn(x) \x7b return x; \x7d" ∧
        n.printer = .buffer "fn(x) \x7b return x; \x7d\n" ∧
        n.heap.names (Machine.fresh (some 1)).1 = ["f"] := by
  intro t f x literal puts call p
  have hf : f.Writable := ⟨isWord_cons rfl rfl, rfl⟩
  have hx : x.Writable := ⟨isWord_cons rfl rfl, rfl⟩
  have hputs : Identifier.Writable ⟨t, "puts"⟩ := ⟨isWord_cons rfl rfl, rfl⟩
  have hp : ∀ s ∈ p.statements, s.Writable := by
    intro s hs
    rcases hs with _ | ⟨_, _ | ⟨_, _ | ⟨_, ⟨⟩⟩⟩⟩
    · exact ⟨hf, List.forall_mem_singleton.mpr hx, hx, trivial⟩
    · exact ⟨hputs, hf, trivial⟩
    · exact ⟨hf, hf, trivial⟩
  have hnesting : ∀ d ∈ (ofSource p.render).diagnostics,
      d.reason ≠ .nestedTooDeeply maxNesting := by
    obtain ⟨ss, hparse, -⟩ := (ofSource_render_of_writable hp).1 (by decide)
    rw [hparse]
    exact List.forall_mem_nil _
  refine ⟨hp, hnesting, ?_⟩
  obtain ⟨-, hends, halike⟩ := ends_render hp hnesting (some 1)
  have htext : literal.render = "fn(x) \x7b return x; \x7d" := by decide
  -- What the program itself does.
  let r := (Machine.fresh (some 1)).2.evalWith 1 (Machine.fresh (some 1)).1 (.program p)
  have hvalue : r.1 = .value (.function ⟨0⟩ literal ⟨0⟩) := by with_unfolding_all rfl
  have hprinter : r.2.printer = .buffer ("" ++ literal.render ++ "\n") := by with_unfolding_all rfl
  have hkeys : ((r.2.heap.scope? ⟨0⟩).map fun s => OrderedMap.keys s.bindings) = some ["f"] := by
    with_unfolding_all rfl
  have hnames : r.2.heap.names (Machine.fresh (some 1)).1 = ["f"] := by
    show (Option.getD ((r.2.heap.scope? ⟨0⟩).map _) []).mergeSort _ = _
    rw [hkeys]
    exact List.mergeSort_singleton _
  have hp' : p.Ends (some 1) r.1 r.2 := by
    refine ends_iff.mpr ⟨1, rfl, ?_⟩
    rw [hvalue]
    exact nofun
  obtain ⟨o, n, hq⟩ := hends.mp ⟨_, _, hp'⟩
  obtain ⟨hsame, hprinter', hnames'⟩ := halike _ _ _ _ hp' hq
  rw [hvalue] at hsame
  cases hsame with
  | value hv =>
    refine ⟨_, n, hq, hv.type.symm, hv.text.symm.trans htext, ?_, hnames'.symm.trans hnames⟩
    rw [← hprinter', hprinter, htext]
    decide

end Program

end Ember
