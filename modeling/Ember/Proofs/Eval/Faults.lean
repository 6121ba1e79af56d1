import Ember.Command.Run
import Ember.Proofs.Canonical.Lexing
import Ember.Proofs.Eval.Data
import Ember.Proofs.Eval.Depth
import Ember.Proofs.Recovery.Source

/-!
# Faults

Evaluating the program of a source text can end in a fault for two reasons only
(`Machine.Reachable.faults`). The first statement that could not be parsed is reached, or calls nest
beyond the limit. Nothing else is missing in such a program, and nothing is missing in the functions
that the heap holds, because all of them come from such programs.

The scopes that evaluation starts from are those of a `Reachable` machine: whatever a series of
programs has left in them, evaluated by whatever interpreters.
-/

namespace Ember

/-! ## Statements of a program -/

namespace Eval

/-- The statements evaluate one after the other, each to an ordinary value. -/
inductive Runs (apply : Apply) (env : ScopeId) : List Stmt → Machine → Machine → Prop
  | nil {m : Machine} : Runs apply env [] m m
  | cons {s : Stmt} {ss : List Stmt} {l m n : Machine} {v : Value} :
      stmt apply env s l = .ok v m → v.isSignal = false → Runs apply env ss m n →
        Runs apply env (s :: ss) l n

variable {apply : Apply} {env : ScopeId} {m n : Machine}

theorem stmts_cons_of_ok {s : Stmt} {v : Value} (h : stmt apply env s m = .ok v n)
    (ss : List Stmt) (last : Value) :
    stmts apply env (s :: ss) last m = stmts apply env ss v n :=
  bind_of_ok h (stmts apply env ss)

/-- A placeholder that is reached ends the evaluation. -/
theorem Runs.stmts_missing {before : List Stmt} (h : Runs apply env before m n) (t : Token)
    (after : List Stmt) : ∀ last, stmts apply env (before ++ .missing t :: after) last m
      = .error (.fault (.placeholder .statement)) n := by
  induction h with
  | nil => exact fun _ => rfl
  | cons hs _ _ ih =>
    intro last
    rw [List.cons_append, stmts_cons_of_ok hs]
    exact ih _

end Eval

/-- What the evaluation of parsed programs keeps to: nothing is missing in any function. -/
abbrev Discipline.parsed : Discipline := .data .complete

namespace Eval

variable {apply : Apply}

/--
Statements that are complete or placeholders keep to the discipline, unless the first placeholder is
reached.
-/
theorem keeps_or_runs (ha : Discipline.parsed.Applies apply) (env : ScopeId) :
    ∀ (ss : List Stmt),
    (∀ s ∈ ss, s.missing? ≠ none ∨ s.Complete) → ∀ {m : Machine} {last : Value},
      m.heap.Sound .complete → last.Sound .complete →
        Discipline.parsed.Keeps m (stmts apply env ss last) Discipline.parsed.Good ∨
        ∃ before t after n, ss = before ++ .missing t :: after ∧ Runs apply env before m n ∧
          n.heap.Sound .complete ∧ n.calls.limit = m.calls.limit
  | [], _, _, _, hm, hlast => .inl ((Discipline.lawful_data .complete env).pure hm hlast)
  | s :: ss, hss, m, last, hm, hlast => by
    have hlaw := Discipline.lawful_data .complete env
    rcases hss s List.mem_cons_self with hmissing | hs
    · cases s with
      | missing t => exact .inr ⟨[], t, ss, m, rfl, .nil, hm, rfl⟩
      | _ => exact absurd rfl hmissing
    -- A complete statement unwinds, or the rest decides.
    have hstmt := hlaw.stmt ha s hs hm
    cases hstmt with
    | error u n run inv step unwinds =>
      have hfirst : Discipline.parsed.Keeps m (stmt apply env s) fun _ _ => False :=
        .error u n run inv step unwinds
      exact .inl (hlaw.bind hfirst fun _ _ _ _ hfalse => hfalse.elim)
    | ok v n run inv step answer =>
      have hrest :=
        keeps_or_runs ha env ss (fun t ht => hss t (List.mem_cons_of_mem s ht)) inv answer
      rcases hrest with hkeeps | ⟨before, t, after, l, rfl, hruns, hl, hlimit⟩
      · refine .inl ?_
        have hfirst : Discipline.parsed.Keeps m (stmt apply env s) fun l w => l = n ∧ w = v :=
          .ok v n run inv step ⟨rfl, rfl⟩
        refine hlaw.bind hfirst ?_
        rintro _ _ - - ⟨rfl, rfl⟩
        exact hkeeps
      · exact .inr ⟨s :: before, t, after, l, rfl, .cons run answer.isSignal hruns, hl,
          hlimit.trans step⟩

end Eval

/-! ## Outcomes -/

/-- Evaluates a node with a budget of nested calls; `Machine.eval` has what the limit leaves. -/
def Machine.evalWith (budget : Nat) (m : Machine) (env : ScopeId) (node : Node) :
    Outcome × Machine :=
  Outcome.ofResult (runNode (applyFunction budget) env node m)

example (m : Machine) (env : ScopeId) (node : Node) :
    m.eval env node = m.evalWith m.callBudget env node := rfl

section Program

variable {budget : Nat} {m n : Machine} {env : ScopeId} {p : Program} {v : Value} {u : Unwind}

theorem Machine.evalWith_of_ok
    (h : Eval.stmts (applyFunction budget) env p.statements .null m = .ok v n) :
    m.evalWith budget env (.program p) = (.value v, n) := by
  simp only [evalWith, runNode, runProgram_of_ok h, Outcome.ofResult]

theorem Machine.evalWith_of_returning
    (h : Eval.stmts (applyFunction budget) env p.statements .null m = .error (.returning v) n) :
    m.evalWith budget env (.program p) = (.value v, n) := by
  simp only [evalWith, runNode, runProgram_of_returning h, Outcome.ofResult]

theorem Machine.evalWith_of_error
    (h : Eval.stmts (applyFunction budget) env p.statements .null m = .error u n)
    (hu : ∀ v, u ≠ .returning v) :
    m.evalWith budget env (.program p) = Outcome.ofResult (.error u n) := by
  simp only [evalWith, runNode, runProgram_of_error h hu]

/-- The first placeholder is reached where the statements before it evaluate to ordinary values. -/
theorem Machine.evalWith_of_runs {before after : List Stmt} {t : Token}
    (hp : p.statements = before ++ .missing t :: after)
    (h : Eval.Runs (applyFunction budget) env before m n) :
    m.evalWith budget env (.program p) = (.fault (.placeholder .statement), n) := by
  have run := h.stmts_missing t after .null
  rw [← hp] at run
  exact evalWith_of_error run nofun

/--
What evaluating a program leaves, and the faults it can end in: the first placeholder is reached, or
a call would go beyond the limit.
-/
theorem Machine.evalWith_program (hp : ∀ s ∈ p.statements, s.missing? ≠ none ∨ s.Complete)
    (hm : m.heap.Sound .complete) :
    (m.evalWith budget env (.program p)).2.heap.Sound .complete ∧
      ∀ f, (m.evalWith budget env (.program p)).1 = .fault f →
        (∃ limit, f = .callDepth limit ∧ m.calls.limit = some limit) ∨
        (f = .placeholder .statement ∧ ∃ before t after n,
          p.statements = before ++ .missing t :: after ∧
            Eval.Runs (applyFunction budget) env before m n) := by
  have ha := (Discipline.lawfulCalls_data .complete).applyFunction budget
  have hnull : Value.null.Sound .complete := trivial
  have hstmts := Eval.keeps_or_runs ha env p.statements hp hm hnull
  rcases hstmts with hkeeps | ⟨before, t, after, n, hstatements, hruns, hn, -⟩
  · cases hkeeps with
    | ok v n run inv step answer =>
      rw [evalWith_of_ok run]
      exact ⟨inv, nofun⟩
    | error u n run inv step unwinds =>
      cases u with
      | returning v =>
        rw [evalWith_of_returning run]
        exact ⟨inv, nofun⟩
      | error e =>
        rw [evalWith_of_error run nofun]
        exact ⟨inv, nofun⟩
      | exhausted =>
        rw [evalWith_of_error run nofun]
        exact ⟨inv, nofun⟩
      | fault f =>
        rw [evalWith_of_error run nofun]
        refine ⟨inv, ?_⟩
        rintro _ ⟨⟩
        -- A complete tree has neither a placeholder nor an empty name, so the limit is what is
        -- left.
        cases unwinds with
        | placeholder h => exact absurd h id
        | unnamed h hmissing =>
          rw [show _ = false from h] at hmissing
          cases hmissing
        | callDepth h => exact .inl ⟨_, rfl, step.symm.trans h⟩
  · rw [evalWith_of_runs hstatements hruns]
    refine ⟨hn, ?_⟩
    rintro _ ⟨⟩
    exact .inr ⟨rfl, before, t, after, n, hstatements, hruns⟩

end Program

/-! ## Reachable machines -/

/--
The machines that evaluating source texts can lead to, by one interpreter or by several that take
turns on the same scopes.
-/
inductive Machine.Reachable : Machine → Prop
  | start (limit : Option Nat) (printer : Printer) : Reachable (.start limit printer)
  | newScope {m : Machine} (outer : Option ScopeId) : Reachable m → Reachable (m.newScope outer).2
  | eval {m : Machine} (budget : Nat) (env : ScopeId) (source : String) : Reachable m →
      Reachable (m.evalWith budget env (.program (.ofSource source))).2
  /-- Another interpreter goes on with the scopes. -/
  | takeOver {m : Machine} (limit : Option Nat) (printer : Printer) : Reachable m →
      Reachable { m with calls := .empty limit, printer }

theorem Program.missing_or_complete (source : String) :
    ∀ s ∈ (ofSource source).statements, s.missing? ≠ none ∨ s.Complete := by
  intro s hs
  rcases writable_of_mem_ofSource hs with hne | hw
  · exact .inl hne
  · exact .inr hw.complete

/-- Nothing is missing in the functions of a reachable machine. -/
theorem Machine.Reachable.sound {m : Machine} (h : m.Reachable) : m.heap.Sound .complete := by
  induction h with
  | start => exact Heap.sound_empty
  | newScope outer _ ih => exact ih.newScope outer
  | eval _ _ source _ ih => exact (evalWith_program (Program.missing_or_complete source) ih).1
  | takeOver _ _ _ ih => exact ih

section Source

variable {m : Machine} {source : String} {env : ScopeId} {budget : Nat} {f : Fault}

/-- The placeholder that is reached is the first one, and it is one of a statement. -/
theorem Machine.Reachable.placeholder_iff (h : m.Reachable) {kind : Placeholder} :
    (m.evalWith budget env (.program (.ofSource source))).1 = .fault (.placeholder kind) ↔
      kind = .statement ∧ ∃ before t after n,
        (Program.ofSource source).statements = before ++ .missing t :: after ∧
          Eval.Runs (applyFunction budget) env before m n := by
  constructor
  · intro hf
    have hcases := (evalWith_program (Program.missing_or_complete source) h.sound).2 _ hf
    rcases hcases with ⟨limit, heq, -⟩ | ⟨heq, hruns⟩
    · cases heq
    · injection heq with hkind
      exact ⟨hkind, hruns⟩
  · rintro ⟨rfl, before, t, after, n, hstatements, hruns⟩
    rw [evalWith_of_runs hstatements hruns]

/-- The depth that a fault names is the limit. -/
theorem Machine.Reachable.limit_of_callDepth (h : m.Reachable) {limit : Nat}
    (hf : (m.evalWith budget env (.program (.ofSource source))).1 = .fault (.callDepth limit)) :
    m.calls.limit = some limit := by
  have hcases := (evalWith_program (Program.missing_or_complete source) h.sound).2 _ hf
  rcases hcases with ⟨_, heq, hlimit⟩ | ⟨heq, -⟩
  · cases heq
    exact hlimit
  · cases heq

/-- Without diagnostics, only the limit on nested calls makes a fault. -/
theorem Machine.Reachable.of_fault (h : m.Reachable)
    (hd : (Program.ofSource source).diagnostics = [])
    (hf : (m.evalWith budget env (.program (.ofSource source))).1 = .fault f) :
    ∃ limit, f = .callDepth limit ∧ m.calls.limit = some limit := by
  have hcases := (evalWith_program (Program.missing_or_complete source) h.sound).2 f hf
  refine hcases.resolve_right ?_
  rintro ⟨-, before, t, after, n, hstatements, -⟩
  have hmem : Stmt.missing t ∈ (Program.ofSource source).statements := by
    rw [hstatements]
    exact List.mem_append_right before List.mem_cons_self
  cases missing?_eq_none_of_mem hd hmem

/-- Where a session starts, the limit is that of the options. -/
theorem Session.reachable_start (options : Options) : (Session.start options).machine.Reachable :=
  (Machine.Reachable.start options.maxDepth .fresh).newScope none

/--
The command that runs a text ends in a fault only where the text has no diagnostics and its
evaluation does not give a value.
-/
theorem Command.of_run_fault {options : Options}
    (h : (run options source).ending = .ok .fault) :
    (Program.ofSource source).diagnostics = [] ∧
      ((∃ f, ((Session.start options).eval (.ofSource source)).1 = .fault f) ∨
        ((Session.start options).eval (.ofSource source)).1 = .exhausted) := by
  cases hd : (Program.ofSource source).hasDiagnostics with
  | true =>
    simp only [run, hd, if_true] at h
    cases h
  | false =>
    simp only [run, hd, Bool.false_eq_true, if_false] at h
    refine ⟨by simpa [Program.hasDiagnostics] using hd, ?_⟩
    have hstatus : ((Session.start options).eval (.ofSource source)).1.status = .fault := by
      injection h
    unfold Outcome.status at hstatus
    split at hstatus
    · cases hstatus
    · cases hstatus
    · next f hf => exact .inl ⟨f, hf⟩
    · next hexhausted => exact .inr hexhausted

/-- The fault of that command is a call beyond the limit, or there is no limit to go beyond. -/
theorem Command.limit_of_run_fault {options : Options}
    (h : (run options source).ending = .ok .fault) :
    (∃ limit, options.maxDepth = some limit ∧
        ((Session.start options).eval (.ofSource source)).1 = .fault (.callDepth limit)) ∨
      (options.maxDepth = none ∧
        ((Session.start options).eval (.ofSource source)).1 = .exhausted) := by
  obtain ⟨hd, ⟨f, hf⟩ | hexhausted⟩ := of_run_fault h
  · obtain ⟨limit, rfl, hlimit⟩ := (Session.reachable_start options).of_fault hd hf
    exact .inl ⟨limit, hlimit, hf⟩
  · refine .inr ⟨?_, hexhausted⟩
    cases hlimit : options.maxDepth with
    | none => rfl
    | some limit => exact absurd hexhausted (Machine.eval_ne_exhausted hlimit _ _)

end Source

/--
A source text is evaluated from a reachable machine, with any budget. It ends in the fault of a
placeholder exactly if every statement before the first placeholder evaluates to an ordinary value,
and the placeholder is that of a statement. The only other fault is a call beyond the limit. So a
text without diagnostics does not fault without a limit. The command that runs a text ends in a
fault only for the limit; without one, that is the budget that stands in for it.
-/
theorem Machine.Reachable.faults {m : Machine} (h : m.Reachable) (source : String)
    (env : ScopeId) (budget : Nat) :
    let p := Program.ofSource source
    let outcome := (m.evalWith budget env (.program p)).1
    (∀ kind, outcome = .fault (.placeholder kind) ↔
        kind = .statement ∧ ∃ before t after n, p.statements = before ++ .missing t :: after ∧
          Eval.Runs (applyFunction budget) env before m n) ∧
      (∀ limit, outcome = .fault (.callDepth limit) → m.calls.limit = some limit) ∧
      (p.diagnostics = [] → m.calls.limit = none → ∀ f, outcome ≠ .fault f) ∧
      ∀ options : Options, (Command.run options source).ending = .ok .fault →
        (∃ limit, options.maxDepth = some limit ∧
          ((Session.start options).eval p).1 = .fault (.callDepth limit)) ∨
        (options.maxDepth = none ∧ ((Session.start options).eval p).1 = .exhausted) := by
  intro p outcome
  refine ⟨fun _ => h.placeholder_iff, fun _ => h.limit_of_callDepth, ?_,
    fun _ => Command.limit_of_run_fault⟩
  intro hd hnone f houtcome
  obtain ⟨limit, -, hlimit⟩ := h.of_fault hd houtcome
  rw [hnone] at hlimit
  cases hlimit

/-- The second semicolon of `true;;` is not a statement. -/
theorem Program.ofSource_true_semicolons : ∃ t u,
    (ofSource "true;;").statements = [.expression t (.boolean t true), .missing u] := by
  obtain ⟨body, ending, hsource, hpieces, hending, -⟩ := TokenList.exists_ofSource "true;;"
  have hscan : scan "true;;".toList =
      [(.kwTrue, "true"), (.semicolon, ";"), (.semicolon, ";")] := by
    have hword : IsWord "true" := isWord_cons rfl rfl
    have hsymbol : Kind.ofSymbol? ';' = some .semicolon := rfl
    have hpair : ∀ d ∈ [';'].head?, Kind.ofSymbolPair? ';' d = none := by
      rintro d ⟨⟩
      rfl
    have hlast : ∀ d ∈ ([] : List Char).head?, Kind.ofSymbolPair? ';' d = none := by
      rintro d ⟨⟩
    show scan ("true".toList ++ [';', ';']) = _
    rw [scan_word hword (.cons rfl _), scan_symbol hsymbol hpair, scan_symbol hsymbol hlast,
      scan_nil]
    rfl
  rw [hscan] at hpieces
  -- Where the tokens stand makes no difference to what they are read as.
  match body, hpieces with
  | [⟨_, _, _, _⟩, ⟨_, _, _, _⟩, ⟨_, _, _, _⟩], hpieces =>
    simp only [List.map, Token.piece, List.cons.injEq, Prod.mk.injEq] at hpieces
    obtain ⟨⟨rfl, rfl⟩, ⟨rfl, rfl⟩, ⟨rfl, rfl⟩, -⟩ := hpieces
    obtain ⟨_, _, _, _⟩ := ending
    cases hending
    unfold ofSource
    rw [hsource]
    exact ⟨_, _, rfl⟩

/-- `true` is evaluated, and then the placeholder behind it is reached. -/
theorem Session.eval_true_semicolons :
    ((Session.start {}).eval (.ofSource "true;;")).1 = .fault (.placeholder .statement) := by
  obtain ⟨t, u, hstatements⟩ := Program.ofSource_true_semicolons
  let session := Session.start {}
  have hfaults := (Session.reachable_start {}).faults "true;;" session.globals
    session.machine.callBudget
  exact (hfaults.1 .statement).mpr
    ⟨rfl, [_], u, [], session.machine, hstatements, .cons rfl rfl .nil⟩

end Ember
