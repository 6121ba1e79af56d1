import Ember.Proofs.Canonical.Phrases
import Ember.Proofs.Eval.Bindings
import Ember.Proofs.Grammar.Program
import Ember.Proofs.Session.Program

/-!
# Counting down

How many calls a limit admits, shown by a function that calls itself one number lower until it is at
zero. Called with `k` it makes `k + 1` calls, each inside the one before, so with a limit it comes
to an end exactly if the limit is at least that (`Machine.countdown_within_limit`).

The text of the program is parsed in two parts (`Program.unplaced_ofSource_append`), because only
the numeral in the second part is not known. The tokens of the tree make no difference to the
evaluation, so it is done with the same token everywhere (`Countdown.program`). The induction is on
the number (`Countdown.exists_applyFunction`): the heap always knows the function by its name, and
every call that is not refused leaves one call less to the limit and to the budget.
-/

namespace Ember

open Phrase

/-! ## One text behind another -/

open Repl in
/-- Behind a text that is finished, another text is parsed as it is alone, at another place. -/
theorem Program.unplaced_ofSource_append {first : String} (h : IsFinished first)
    (second : String) : (ofSource (first ++ " " ++ second)).unplaced =
      (⟨(ofSource first).statements ++ (ofSource second).statements,
        (ofSource second).diagnostics⟩ : Program).unplaced := by
  obtain ⟨y, hy, -, hpieces, hfirst, hprogram⟩ := ofSource_eq_body first
  obtain ⟨z, hz, hsource, -, hsecond, hprogram'⟩ := ofSource_eq_body second
  obtain ⟨hcloses, hdiagnostics⟩ := closes_body (.inr h)
  rw [hprogram] at hdiagnostics
  have hread : (readAll ⟨body first, y⟩).2 = [] := hdiagnostics
  have hscan : scan (first ++ " " ++ second).toList = scan first.toList ++ scan second.toList := by
    rw [String.toList_append, String.toList_append, List.append_assoc]
    exact scan_append_layout rfl (not_isUnclosed_of_isFinished h) _
  have hwhole : (TokenList.ofSource (first ++ " " ++ second)).tokens.map Token.piece =
      (scan first.toList ++ scan second.toList) ++ [(.eof, "")] := by
    rw [← hscan]
    exact map_piece_tokens _
  have hpart : (TokenList.ofSource second).tokens.map Token.piece =
      scan second.toList ++ [(.eof, "")] := map_piece_tokens _
  have htokens : (TokenList.ofSource (first ++ " " ++ second)).tokens.map Token.piece =
      (TokenList.mk ((body first ++ body second) ++ [z])).tokens.map Token.piece := by
    rw [hwhole, List.append_assoc, ← hpart, ← hpieces, hsource, ← List.map_append,
      List.append_assoc]
  have hbody : ∀ t ∈ body first ++ body second, t.kind ≠ .eof :=
    List.forall_mem_append.mpr ⟨hfirst, hsecond⟩
  rw [ofSource, unplaced_ofTokens_congr htokens, ofTokens_eq, Input.ofList_concat hbody hz,
    readAll_append hcloses hy hz, hread, hprogram, hprogram']
  rfl

namespace Countdown

/-! ## The function -/

/-- The function with one token everywhere: zero at zero, else its own value one number lower. -/
def literal (t : Token) : FunctionLiteral :=
  let n : Expr := .identifier ⟨t, "n"⟩
  let again : Expr := .call t (.identifier ⟨t, "down"⟩) [.binary t n .sub (.integer t 1)]
  let choice : Expr := .conditional t (.binary t n .eq (.integer t 0))
    ⟨t, [.expression t (.integer t 0)]⟩ (some ⟨t, [.expression t again]⟩)
  ⟨t, [⟨t, "n"⟩], ⟨t, [.expression t choice]⟩⟩

variable {t : Token} {g : ScopeId} {h : Heap} {m : Machine} {v : Value}

variable (t g h) in
/-- The function is bound to its name in the scope that it was made in. -/
structure Knows : Prop where
  has : h.Has g
  bound : ∃ id, h.binding? g "down" = some (.function id (literal t) g)

theorem Knows.lookup (hk : Knows t g h) :
    ∃ id, h.lookup g "down" = some (.function id (literal t) g) := by
  obtain ⟨id, hid⟩ := hk.bound
  exact ⟨id, by rw [Heap.lookup_eq, hid]; rfl⟩

/-- The scope of a call. -/
def scopeOf (h : Heap) : ScopeId := ⟨h.scopes.size⟩

/-- The heap in which a call has its scope, with the parameter bound in it. -/
def entered (h : Heap) (g : ScopeId) (v : Value) : Heap :=
  (h.newScope (some g)).2.set (scopeOf h) "n" v

theorem Knows.ne (hk : Knows t g h) : scopeOf h ≠ g := by
  rintro rfl
  exact Nat.lt_irrefl _ hk.has

theorem Knows.entered (hk : Knows t g h) (v : Value) : Knows t g (entered h g v) where
  has := Heap.has_set_iff.mpr (Heap.has_newScope_iff.mpr (.inl hk.has))
  bound := by
    obtain ⟨id, hid⟩ := hk.bound
    refine ⟨id, ?_⟩
    rw [Countdown.entered, Heap.binding?_set, if_neg fun hset => hk.ne hset.1,
      Heap.binding?_newScope, hid]

theorem lookup_entered_parameter (h : Heap) (g : ScopeId) (v : Value) :
    (entered h g v).lookup (scopeOf h) "n" = some v := by
  have hhas : (h.newScope (some g)).2.Has (scopeOf h) := Heap.has_newScope_iff.mpr (.inr rfl)
  rw [Heap.lookup_eq, entered, Heap.binding?_set, if_pos ⟨rfl, rfl, hhas⟩]
  rfl

theorem lookup_entered_function (hk : Knows t g h) (v : Value) :
    ∃ id, (entered h g v).lookup (scopeOf h) "down" = some (.function id (literal t) g) := by
  obtain ⟨id, hid⟩ := (hk.entered v).lookup
  have hnone : h.scope? (scopeOf h) = none := Array.getElem?_size
  have hfree : (entered h g v).binding? (scopeOf h) "down" = none := by
    rw [entered, Heap.binding?_set, if_neg fun hset => absurd hset.2.1 (by decide),
      Heap.binding?_newScope, Heap.binding?, hnone]
    rfl
  have hlink : (entered h g v).outer? (scopeOf h) = some g := by
    rw [entered, Heap.outer?_set, Heap.outer?_newScope]
    exact if_pos rfl
  have holder : g.index < (scopeOf h).index := hk.has
  refine ⟨id, ?_⟩
  rw [Heap.lookup_eq, hfree, hlink, Option.none_or, Option.bind_some, if_pos holder, hid]

/-- A call runs the body of the function in its scope. -/
theorem callWith_literal (body : ScopeId → Block → Eval Value) (frame : CallFrame) (m : Machine) :
    callWith body (literal t) g frame [v] m =
      Eval.inFrame frame (body (scopeOf m.heap) (literal t).body)
        { m with heap := entered m.heap g v } := by
  rfl

section Body

variable {apply : Apply} {env : ScopeId} {name : String} {w : Int64}

theorem expr_identifier (hname : name.isEmpty = false) (h : m.heap.lookup env name = some v) :
    Eval.expr apply env (.identifier ⟨t, name⟩) m = .ok v m := by
  have hnamed : ¬(Identifier.mk t name).isMissing = true := by
    rw [Identifier.isMissing, hname]
    exact Bool.false_ne_true
  rw [Eval.expr, Moment.resolve_of_named hnamed, h]

theorem stmts_singleton (s : Stmt) (last : Value) :
    Eval.stmts apply env [s] last m = Eval.stmt apply env s m := by
  rw [Eval.stmts]
  exact congrFun (bind_pure (Eval.stmt apply env s)) m

/-- At zero the function does not call itself. -/
theorem block_literal_zero (hn : m.heap.lookup env "n" = some (.integer 0)) :
    Eval.block apply env (literal t).body m = .ok (.integer 0) m := by
  have hcondition : Eval.expr apply env (.binary t (.identifier ⟨t, "n"⟩) .eq (.integer t 0)) m =
      .ok (.boolean true) m := by
    rw [Eval.expr, Eval.bind_of_ok (expr_identifier rfl hn)]
    rfl
  show Eval.stmts apply env [_] .null m = _
  rw [stmts_singleton, Eval.stmt, Eval.expr, Eval.bind_of_ok hcondition]
  rfl

/-- Elsewhere its answer is that of the call one number lower. -/
theorem block_literal_succ {w' : Int64} {id : Identity} (hw : w ≠ 0)
    (hless : subExact? w 1 = some w') (hn : m.heap.lookup env "n" = some (.integer w))
    (hdown : m.heap.lookup env "down" = some (.function id (literal t) g)) :
    Eval.block apply env (literal t).body m =
      apply (literal t) g ⟨"down", t.position⟩ [.integer w'] m := by
  have hcondition : Eval.expr apply env (.binary t (.identifier ⟨t, "n"⟩) .eq (.integer t 0)) m =
      .ok (.boolean false) m := by
    have hequal : evalBinary (.integer w) .eq (.integer 0) = .ok (.boolean false) := by
      show Except.ok (Value.boolean (w == 0)) = _
      rw [beq_false_of_ne hw]
    rw [Eval.expr, Eval.bind_of_ok (expr_identifier rfl hn)]
    show Eval.ofExcept (evalBinary (.integer w) .eq (.integer 0)) m = _
    rw [hequal]
    rfl
  have hargument : Eval.exprs apply env [.binary t (.identifier ⟨t, "n"⟩) .sub (.integer t 1)] m =
      .ok [.integer w'] m := by
    have hdifference : Eval.expr apply env
        (.binary t (.identifier ⟨t, "n"⟩) .sub (.integer t 1)) m = .ok (.integer w') m := by
      rw [Eval.expr, Eval.bind_of_ok (expr_identifier rfl hn)]
      show Eval.ofExcept (orOverflow w .sub 1 (subExact? w 1)) m = _
      rw [hless]
      rfl
    rw [Eval.exprs, Eval.bind_of_ok hdifference]
    rfl
  show Eval.stmts apply env [_] .null m = _
  rw [stmts_singleton, Eval.stmt, Eval.expr, Eval.bind_of_ok hcondition]
  show Eval.stmts apply env [_] .null m = _
  rw [stmts_singleton, Eval.stmt, Eval.expr, Eval.bind_of_ok (expr_identifier rfl hdown),
    Eval.bind_of_ok hargument]
  rfl

end Body

/-! ## Counting down -/

/-- How a countdown from `k` ends where some calls are under way already. -/
def answer (s : CallStack) (k : Nat) : Except Unwind Value :=
  match s.limit with
  | none => .ok (.integer 0)
  | some l => if s.depth + k < l then .ok (.integer 0) else .error (.fault (.callDepth l))

/-- The budget is enough for the calls of a countdown from `k` that the limit allows. -/
def Suffices (budget : Nat) (s : CallStack) (k : Nat) : Prop :=
  match s.limit with
  | none => k < budget
  | some l => l ≤ s.depth + budget

/-- Where no call is under way, the limit must be greater than the number. -/
theorem answer_empty (limit : Option Nat) (k : Nat) (n : Machine) :
    (Outcome.ofResult (Moment.result n (answer (.empty limit) k))).1 = match limit with
      | none => .value (.integer 0)
      | some l => if k + 1 ≤ l then .value (.integer 0) else .fault (.callDepth l) := by
  cases limit with
  | none => rfl
  | some l =>
    show (Outcome.ofResult (Moment.result n (if 0 + k < l then _ else _))).1 = _
    rw [Nat.zero_add]
    by_cases hlt : k < l
    · rw [if_pos hlt]
      exact (if_pos hlt).symm
    · rw [if_neg hlt]
      exact (if_neg hlt).symm

theorem answer_eq_or (s : CallStack) (k : Nat) :
    answer s k = .ok (.integer 0) ∨ ∃ f, answer s k = .error (.fault f) := by
  unfold answer
  split
  · exact .inl rfl
  · split
    · exact .inl rfl
    · exact .inr ⟨_, rfl⟩

section Push

variable {s s' : CallStack} {frame : CallFrame} {budget : Nat}

/-- A call that is refused ends every countdown. -/
theorem answer_of_push_error {f : Fault} (hpush : s.push frame = .error f) (k : Nat) :
    answer s k = .error (.fault f) := by
  unfold answer
  cases hlimit : s.limit with
  | none => simp only [CallStack.push, hlimit, reduceCtorEq] at hpush
  | some l =>
    simp only [CallStack.push, hlimit] at hpush
    split at hpush
    · cases hpush
      exact if_neg (by omega)
    · cases hpush

theorem answer_zero_of_push (hpush : s.push frame = .ok s') : answer s 0 = .ok (.integer 0) := by
  unfold answer
  cases hlimit : s.limit with
  | none => rfl
  | some l => exact if_pos (CallStack.depth_lt_of_push hpush hlimit)

/-- What is left of a countdown ends as the whole does. -/
theorem answer_succ_of_push (hpush : s.push frame = .ok s') (k : Nat) :
    answer s (k + 1) = answer s' k := by
  rw [answer, answer, CallStack.limit_of_push hpush, CallStack.depth_of_push hpush,
    Nat.add_right_comm, Nat.add_assoc]

/-- A call that is not refused is in the budget, and the rest is enough for what is left. -/
theorem Suffices.of_push {k : Nat} (hs : Suffices budget s k) (hpush : s.push frame = .ok s') :
    ∃ b, budget = b + 1 ∧ ∀ j, k = j + 1 → Suffices b s' j := by
  unfold Suffices at hs ⊢
  rw [CallStack.limit_of_push hpush, CallStack.depth_of_push hpush]
  cases hlimit : s.limit with
  | none =>
    simp only [hlimit] at hs
    exact ⟨budget - 1, by omega, fun j hj => by show j < _; omega⟩
  | some l =>
    have hlt := CallStack.depth_lt_of_push hpush hlimit
    simp only [hlimit] at hs
    exact ⟨budget - 1, by omega, fun j hj => by show l ≤ _; omega⟩

end Push

/-- A call ends as its body does, with the calls that were under way before. -/
theorem exists_inFrame {frame : CallFrame} {calls : CallStack} {body : Eval Value} {n : Machine}
    {s : CallStack} {k : Nat} (hpush : m.calls.push frame = .ok calls)
    (hbody : body { m with calls } = Moment.result n (answer s k)) (hcalls : n.calls = calls) :
    ∃ n', Eval.inFrame frame body m = Moment.result n' (answer s k) ∧ n'.calls = m.calls := by
  refine ⟨Eval.popFrame n, ?_, ?_⟩
  · rcases answer_eq_or s k with hanswer | ⟨f, hanswer⟩
    · rw [hanswer] at hbody ⊢
      exact Eval.inFrame_of_ok hpush hbody
    · rw [hanswer] at hbody ⊢
      exact Eval.inFrame_of_error hpush hbody nofun
  · show n.calls.pop = m.calls
    rw [hcalls, CallStack.pop_of_push hpush]

/-- A call ends as it should if its body does whenever there is room for the call. -/
theorem exists_applyFunction_of_body {budget : Nat} {k : Nat} {frame : CallFrame}
    (hs : Suffices budget m.calls k)
    (hbody : ∀ b calls, m.calls.push frame = .ok calls → (∀ j, k = j + 1 → Suffices b calls j) →
      ∃ n, Eval.block (applyFunction b) (scopeOf m.heap) (literal t).body
          ⟨entered m.heap g v, calls, m.printer⟩ = Moment.result n (answer m.calls k) ∧
        n.calls = calls) :
    ∃ n, applyFunction budget (literal t) g frame [v] m = Moment.result n (answer m.calls k) ∧
      n.calls = m.calls := by
  cases hpush : m.calls.push frame with
  | error f =>
    rw [answer_of_push_error hpush]
    refine ⟨{ m with heap := entered m.heap g v }, ?_, rfl⟩
    cases budget <;> exact (callWith_literal _ frame m).trans (Eval.inFrame_of_push_error hpush)
  | ok calls =>
    obtain ⟨b, rfl, hrest⟩ := hs.of_push hpush
    obtain ⟨n, hrun, hcalls⟩ := hbody b calls hpush hrest
    obtain ⟨n', hcall, hcalls'⟩ :=
      exists_inFrame (m := { m with heap := entered m.heap g v }) hpush hrun hcalls
    exact ⟨n', (callWith_literal _ frame m).trans hcall, hcalls'⟩

/-- A call with the number `k` makes `k` more, one inside the other. -/
theorem exists_applyFunction {budget : Nat} {w : Int64} {k : Nat} (hk : Knows t g m.heap)
    (hw : w.toInt = k) (frame : CallFrame) (hs : Suffices budget m.calls k) :
    ∃ n, applyFunction budget (literal t) g frame [.integer w] m =
      Moment.result n (answer m.calls k) ∧ n.calls = m.calls := by
  -- On the number: the call inside is that of the predecessor, with one frame more below it.
  induction k generalizing m budget w frame with
  | zero =>
    obtain rfl : w = 0 := Int64.toInt_inj.mp hw
    refine exists_applyFunction_of_body hs fun b calls hpush _ => ?_
    rw [answer_zero_of_push hpush]
    exact ⟨_, block_literal_zero (lookup_entered_parameter m.heap g _), rfl⟩
  | succ k ih =>
    have hne : w ≠ 0 := by
      rintro rfl
      exact absurd hw.symm (Int.natCast_ne_zero.mpr k.succ_ne_zero)
    have hbounds : smallest ≤ w.toInt - 1 ∧ w.toInt - 1 ≤ largest := by
      have hle := toInt_le_largest w
      unfold smallest
      omega
    have hless : subExact? w 1 = some (Int64.ofInt (w.toInt - 1)) := if_pos hbounds
    have hw' : (Int64.ofInt (w.toInt - 1)).toInt = k := by
      rw [fit?_eq_some_iff.mp hless, hw]
      exact Int.add_sub_cancel k 1
    obtain ⟨id, hdown⟩ := lookup_entered_function hk (.integer w)
    refine exists_applyFunction_of_body hs fun b calls hpush hrest => ?_
    -- What comes back from the call inside is the answer, so nothing is left to do after it.
    rw [block_literal_succ hne hless (lookup_entered_parameter m.heap g _) hdown,
      answer_succ_of_push hpush]
    exact ih (hk.entered (.integer w)) hw' _ (hrest k rfl)

/-! ## The program -/

/-- The function is bound to its name, and then called with a number. -/
def program (t : Token) (w : Int64) : Program :=
  ⟨[.letBinding t ⟨t, "down"⟩ (.function (literal t)),
    .expression t (.call t (.identifier ⟨t, "down"⟩) [.integer t w])], []⟩

/-- The heap in which the function is bound to its name. -/
def declared (t : Token) (g : ScopeId) (h : Heap) : Heap :=
  h.freshIdentity.2.set g "down" (.function h.freshIdentity.1 (literal t) g)

theorem knows_declared (hg : h.Has g) : Knows t g (declared t g h) where
  has := Heap.has_set_iff.mpr hg
  bound := ⟨_, by rw [declared, Heap.binding?_set]; exact if_pos ⟨rfl, rfl, hg⟩⟩

theorem exists_evalWith (hg : m.heap.Has g) {budget : Nat} {w : Int64} {k : Nat}
    (hw : w.toInt = k) (hs : Suffices budget m.calls k) :
    ∃ n, m.evalWith budget g (.program (program t w)) =
      Outcome.ofResult (Moment.result n (answer m.calls k)) ∧ n.calls = m.calls := by
  let m' : Machine := { m with heap := declared t g m.heap }
  have hknows : Knows t g m'.heap := knows_declared hg
  obtain ⟨id, hdown⟩ := hknows.lookup
  obtain ⟨n, hcall, hcalls⟩ := exists_applyFunction hknows hw ⟨"down", t.position⟩ hs
  refine ⟨n, ?_, hcalls⟩
  have hlet : Eval.stmt (applyFunction budget) g
      (.letBinding t ⟨t, "down"⟩ (.function (literal t))) m = .ok .null m' := rfl
  have hstmts : Eval.stmts (applyFunction budget) g (program t w).statements .null m =
      Moment.result n (answer m.calls k) := by
    rw [program, Eval.stmts_cons_of_ok hlet, stmts_singleton, Eval.stmt, Eval.expr,
      Eval.bind_of_ok (expr_identifier rfl hdown)]
    exact hcall
  rcases answer_eq_or m.calls k with hanswer | ⟨f, hanswer⟩
  · rw [hanswer] at hstmts ⊢
    exact Machine.evalWith_of_ok hstmts
  · rw [hanswer] at hstmts ⊢
    exact Machine.evalWith_of_error hstmts nofun

/-! ## The text -/

/-- The text that binds the function to its name. -/
def declaration : String :=
  "let down = fn(n) \x7b if (n == 0) \x7b 0 \x7d else \x7b down(n - 1) \x7d \x7d;"

/-- The text that calls the function with a number. -/
def call (k : Nat) : String := "down(" ++ Text.writeInt k ++ ")"

theorem isFinished_declaration : Repl.IsFinished declaration where
  diagnostics := by with_unfolding_all rfl
  semicolon := by with_unfolding_all rfl

theorem map_bare_declaration (w : Int64) : (Program.ofSource declaration).statements.map Stmt.bare =
    ((program .endOfInput w).statements.take 1).map Stmt.bare := by
  with_unfolding_all rfl

theorem scan_call (k : Nat) : scan (call k).toList =
    [(.ident, "down"), (.lParen, "("), (.int, Text.writeInt k), (.rParen, ")")] := by
  have htext : (call k).toList = "down".toList ++ '(' :: ((Text.writeInt k).toList ++ [')']) := by
    simp [call]
  have hword : IsWord "down" := isWord_cons rfl rfl
  have hapart : Apart [')'] := .cons rfl _
  rw [htext, scan_word hword (.cons rfl _), scan_lParen,
    scan_integer (Int.natCast_nonneg k) hapart, scan_rParen, scan_nil]
  rfl

theorem ofSource_call {k : Nat} {w : Int64} (hw : w.toInt = k) :
    (Program.ofSource (call k)).diagnostics = [] ∧
      (Program.ofSource (call k)).statements.map Stmt.bare =
        ((program .endOfInput w).statements.drop 1).map Stmt.bare := by
  obtain ⟨body, ending, hsource, hpieces, hending, hbody⟩ := TokenList.exists_ofSource (call k)
  rw [scan_call] at hpieces
  obtain ⟨name, _, rfl, hname, hpieces⟩ := List.map_eq_cons_iff.mp hpieces
  obtain ⟨opening, _, rfl, hopening, hpieces⟩ := List.map_eq_cons_iff.mp hpieces
  obtain ⟨number, _, rfl, hnumber, hpieces⟩ := List.map_eq_cons_iff.mp hpieces
  obtain ⟨closing, rfl, hclosing⟩ := List.map_eq_singleton_iff.mp hpieces
  obtain ⟨hident, hdown⟩ := Prod.mk.inj hname
  obtain ⟨hint, hliteral⟩ := Prod.mk.inj hnumber
  have hvalue : (Text.readInt? number.literal.toList).bind fit? = some w := by
    rw [hliteral, Text.readInt?_writeInt, Option.bind_some, ← hw, fit?_toInt]
  have hargument : Nested .equality [number, closing] (.integer number w) 1 [closing] :=
    nested_of_operation (.atom (.integer hint hvalue))
  have hcall : Operation .application [name, opening, number, closing]
      (.call opening (.identifier (.ofToken name)) [.integer number w]) 1 _ [] :=
    .call (.tighter rfl (.atom (.identifier hident))) (congrArg Prod.fst hopening)
      (.some hargument (.close (congrArg Prod.fst hclosing)))
  have hstatement : Statement [name, opening, number, closing]
      (.ofExpr (.call opening (.identifier (.ofToken name)) [.integer number w])) _ [] :=
    .bare (nested_of_operation hcall) rfl
  have hprogram := (Program.ofTokens_of_statements hbody hending (.cons hstatement .nil)).1
    (by decide)
  rw [Program.ofSource, hsource, hprogram, Identifier.ofToken, hdown]
  exact ⟨rfl, rfl⟩

/-- The text of the whole program. -/
def source (k : Nat) : String := declaration ++ " " ++ call k

theorem ofSource_source {k : Nat} {w : Int64} (hw : w.toInt = k) :
    (Program.ofSource (source k)).diagnostics = [] ∧
      (Program.ofSource (source k)).statements.map Stmt.bare =
        (program .endOfInput w).statements.map Stmt.bare := by
  have hunplaced := Program.unplaced_ofSource_append isFinished_declaration (call k)
  obtain ⟨hdiagnostics, hcall⟩ := ofSource_call hw
  have hstatements := Program.map_bare_of_unplaced_eq hunplaced
  have hnone := congrArg Program.diagnostics hunplaced
  rw [hdiagnostics] at hnone
  refine ⟨List.map_eq_nil_iff.mp hnone, hstatements.trans ?_⟩
  rw [List.map_append, map_bare_declaration w, hcall, ← List.map_append, List.take_append_drop]

end Countdown

/-! ## Taking tokens out -/

/-- Integers and faults have no tokens. -/
theorem Outcome.eq_of_bare {o o' : Outcome} (h : o.bare = o'.bare)
    (ho : (∃ w, o' = .value (.integer w)) ∨ ∃ f, o' = .fault f) : o = o' := by
  rcases ho with ⟨w, rfl⟩ | ⟨f, rfl⟩
  · cases o with
    | value v => cases v <;> first | exact h | cases h
    | _ => cases h
  · cases o with
    | fault g => exact h
    | _ => cases h

theorem CallStack.eq_empty_of_bare {s : CallStack} {limit : Option Nat}
    (h : s.bare = (empty limit).bare) : s = empty limit := by
  obtain ⟨frames, l⟩ := s
  obtain ⟨hframes, rfl⟩ := CallStack.mk.inj h
  have hnone : frames = #[] := Array.map_eq_empty_iff.mp (hframes.trans Array.map_empty)
  rw [hnone]
  rfl

/-! ## The limit -/

open Countdown

/--
A limit on nested calls admits as many as it says. The countdown from a number makes one call more
than the number, one inside the other; it comes to zero if the limit is at least that, and ends with
the fault that names the limit if not. In both cases no call is left on the stack.
-/
theorem Machine.countdown_within_limit {k : Nat} (hk : (k : Int) ≤ largest) (heap : Heap)
    (limit : Option Nat) (printer : Printer) :
    let p := Program.ofSource (source k)
    let (env, m) := newScope ⟨heap, .empty limit, printer⟩ none
    let (outcome, n) := m.eval env (.program p)
    p.diagnostics = [] ∧ n.calls = .empty limit ∧
      outcome = match limit with
        | none => .value (.integer 0)
        | some l => if k + 1 ≤ l then .value (.integer 0) else .fault (.callDepth l) := by
  have hfit : fit? k = some (Int64.ofInt k) := by
    refine if_pos ⟨?_, hk⟩
    unfold smallest
    omega
  have hw : (Int64.ofInt k).toInt = k := fit?_eq_some_iff.mp hfit
  obtain ⟨hdiagnostics, hstatements⟩ := ofSource_source hw
  let m := (newScope ⟨heap, .empty limit, printer⟩ none).2
  have hg : m.heap.Has ⟨heap.scopes.size⟩ := Heap.has_newScope_iff.mpr (.inr rfl)
  have hsuffices : Suffices m.callBudget m.calls k := by
    cases limit with
    | none =>
      show k < Machine.unlimitedBudget
      unfold Machine.unlimitedBudget
      unfold largest at hk
      omega
    | some l => exact Nat.le_of_eq (Nat.zero_add l).symm
  obtain ⟨n, heval, hcalls⟩ := exists_evalWith (t := .endOfInput) hg hw hsuffices
  -- The parsed program is the one above, but for its tokens.
  obtain ⟨houtcome, hmachine⟩ := bare_evalWith_congr hstatements m m.callBudget _
  rw [heval] at houtcome hmachine
  rw [Moment.machine_ofResult] at hmachine
  rw [show m.calls = .empty limit from rfl, answer_empty] at houtcome
  refine ⟨hdiagnostics, CallStack.eq_empty_of_bare ?_, Outcome.eq_of_bare houtcome ?_⟩
  · exact (congrArg Machine.calls hmachine).trans (congrArg CallStack.bare hcalls)
  · cases limit with
    | none => exact .inl ⟨0, rfl⟩
    | some l =>
      simp only
      split
      · exact .inl ⟨0, rfl⟩
      · exact .inr ⟨_, rfl⟩

/-- Counting down from three takes four calls. -/
theorem Machine.countdown_within_limit_three :
    (3 : Int) ≤ largest ∧ source 3 = "let down = fn(n) \x7b if (n == 0) \x7b 0 \x7d " ++
        "else \x7b down(n - 1) \x7d \x7d; down(3)" ∧
      ((fresh (some 4)).2.eval (fresh (some 4)).1 (.program (.ofSource (source 3)))).1 =
        .value (.integer 0) ∧
      ((fresh (some 3)).2.eval (fresh (some 3)).1 (.program (.ofSource (source 3)))).1 =
        .fault (.callDepth 3) := by
  have hthree : ((3 : Nat) : Int) ≤ largest := by decide
  have hfour := countdown_within_limit hthree .empty (some 4) .fresh
  have hfault := countdown_within_limit hthree .empty (some 3) .fresh
  exact ⟨hthree, by decide +kernel, hfour.2.2, hfault.2.2⟩

end Ember
