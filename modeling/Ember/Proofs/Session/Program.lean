import Ember.Proofs.Layout.Meaning
import Ember.Proofs.Recovery.Balanced
import Ember.Proofs.Session.Lines
import Ember.Proofs.Text.Trim

/-!
# A session as one program

Lines that end their last statement with a semicolon can be put together to one text. The lexer
reads them one by one, because a line feed ends every token (`scan_intercalate`), and so does the
parser, because nothing that a line opens is left open (`Program.unplaced_ofSource_intercalate`).
What such a text does is what the session does, line after line: the scopes are shared in both, and
the printer makes no difference (`Repl.stmts_lines`).

So the command that runs the text prints what the session printed, and shows the value of its last
line (`Command.run_intercalate`).
-/

namespace Ember

/-! ## One text -/

namespace Repl

/-- A line of nothing but spaces and tabs. -/
def IsSpaces (line : String) : Prop := ∀ c ∈ line.toList, c = ' ' ∨ c = '\t'

/-- The tokens of a line, without the end of input. -/
def body (line : String) : List Token := (TokenList.ofSource line).tokens.dropLast

/-- A line that is parsed without diagnostics and whose last token is a semicolon. -/
structure IsFinished (line : String) : Prop where
  diagnostics : (Program.ofSource line).diagnostics = []
  semicolon : (body line).getLast?.map Token.kind = some .semicolon

theorem IsFinished.exists_concat {line : String} (h : IsFinished line) :
    ∃ ts semicolon, body line = ts ++ [semicolon] ∧ semicolon.kind = .semicolon := by
  obtain ⟨semicolon, hlast, hkind⟩ := Option.map_eq_some_iff.mp h.semicolon
  obtain ⟨ts, hts⟩ := List.getLast?_eq_some_iff.mp hlast
  exact ⟨ts, semicolon, hts, hkind⟩

end Repl

open Repl

section Text

variable {line : String} {lines : List String}

theorem ofSource_eq_body (line : String) : ∃ ending : Token, ending.kind = .eof ∧
    TokenList.ofSource line = ⟨body line ++ [ending]⟩ ∧
    (body line).map Token.piece = scan line.toList ∧ (∀ t ∈ body line, t.kind ≠ .eof) ∧
    Program.ofSource line =
      ⟨(readAll ⟨body line, ending⟩).1, (readAll ⟨body line, ending⟩).2⟩ := by
  obtain ⟨ts, ending, hsource, hpieces, hending, hts⟩ := TokenList.exists_ofSource line
  have hbody : body line = ts := by rw [body, hsource, List.dropLast_concat]
  refine ⟨ending, hending, ?_, ?_, ?_, ?_⟩
  · rw [hbody, hsource]
  · rw [hbody, hpieces]
  · rwa [hbody]
  · rw [hbody, Program.ofSource, hsource, Program.ofTokens_eq, Input.ofList_concat hts hending]

theorem isLayout_of_isSpaces (h : IsSpaces line) : IsLayout line.toList := by
  intro c hc
  rcases h c hc with rfl | rfl <;> rfl

theorem scan_of_isSpaces (h : IsSpaces line) : scan line.toList = [] := by
  have hscan := scan_isLayout_append (isLayout_of_isSpaces h) []
  rwa [List.append_nil, scan_nil] at hscan

/-- A quote without a partner reaches to the end of a text, so no semicolon stands there. -/
theorem not_isUnclosed_of_isFinished (h : IsFinished line) :
    ∀ p ∈ scan line.toList, ¬Piece.IsUnclosed p := by
  rintro p hp ⟨hillegal, hquote⟩
  obtain ⟨ts, semicolon, hbody, hsemicolon⟩ := h.exists_concat
  obtain ⟨-, -, -, hpieces, -⟩ := ofSource_eq_body line
  obtain ⟨before, after, hscan⟩ := List.append_of_mem hp
  have hpiece : p = (.illegal, p.2) := by rw [← hillegal]
  obtain ⟨rfl, -⟩ :=
    (Scans.iff_scan.mpr hscan.symm).unclosed_of_illegal (by rw [← hpiece]) hquote
  rw [hbody, hscan, List.map_append, List.map_singleton] at hpieces
  have hlast : semicolon.piece = p := (List.append_inj' hpieces rfl).2 |> List.singleton_inj.mp
  rw [← hlast] at hillegal
  exact absurd (hsemicolon.symm.trans hillegal) nofun

/-- A line feed ends every token. -/
theorem scan_intercalate (h : ∀ line ∈ lines, IsSpaces line ∨ IsFinished line) :
    scan ("\n".intercalate lines).toList = lines.flatMap fun line => scan line.toList := by
  induction lines with
  | nil => simp
  | cons line lines ih =>
    obtain ⟨hline, hlines⟩ := List.forall_mem_cons.mp h
    cases lines with
    | nil => simp
    | cons next lines =>
      have hclosed : ∀ p ∈ scan line.toList, ¬Piece.IsUnclosed p := by
        rcases hline with hspaces | hfinished
        · simp [scan_of_isSpaces hspaces]
        · exact not_isUnclosed_of_isFinished hfinished
      have htext : ("\n".intercalate (line :: next :: lines)).toList =
          line.toList ++ '\n' :: ("\n".intercalate (next :: lines)).toList := by
        rw [String.intercalate_cons_cons, String.toList_append, String.toList_append,
          List.append_assoc]
        rfl
      rw [htext, scan_append_layout rfl hclosed, ih hlines]
      rfl

/-- A line leaves nothing open that it has opened. -/
theorem closes_body (h : IsSpaces line ∨ IsFinished line) :
    Closes 0 (body line) ∧ (Program.ofSource line).diagnostics = [] := by
  obtain ⟨ending, hending, -, hpieces, -, hprogram⟩ := ofSource_eq_body line
  rcases h with hspaces | hfinished
  · have hbody : body line = [] := by
      rw [scan_of_isSpaces hspaces] at hpieces
      exact List.map_eq_nil_iff.mp hpieces
    rw [hprogram, hbody]
    exact ⟨.nil, rfl⟩
  · obtain ⟨ts, semicolon, hbody, hsemicolon⟩ := hfinished.exists_concat
    have hread := hfinished.diagnostics
    rw [hprogram] at hread
    have hi : (⟨body line, ending⟩ : Input).Ended := hending
    refine ⟨closes_of_readAll hi hread ?_, hfinished.diagnostics⟩
    intro t ht
    rw [hbody, List.getLast?_concat] at ht
    cases ht
    exact hsemicolon

theorem readAll_flatMap {ending : Token} (hending : ending.kind = .eof)
    (h : ∀ line ∈ lines, IsSpaces line ∨ IsFinished line) :
    readAll ⟨lines.flatMap body, ending⟩ =
      (lines.flatMap fun line => (Program.ofSource line).statements, []) := by
  induction lines with
  | nil => rfl
  | cons line lines ih =>
    obtain ⟨hline, hlines⟩ := List.forall_mem_cons.mp h
    obtain ⟨ending', hending', -, -, -, hprogram⟩ := ofSource_eq_body line
    obtain ⟨hcloses, hdiagnostics⟩ := closes_body hline
    have hread : (readAll ⟨body line, ending'⟩).2 = [] := by
      rw [hprogram] at hdiagnostics
      exact hdiagnostics
    rw [List.flatMap_cons, readAll_append hcloses hending' hending, ih hlines, hread]
    simp [hprogram]

/-- The program of all lines has the statements of each of them, at other places. -/
theorem Program.unplaced_ofSource_intercalate
    (h : ∀ line ∈ lines, IsSpaces line ∨ IsFinished line) :
    (ofSource ("\n".intercalate lines)).unplaced =
      (⟨lines.flatMap fun line => (ofSource line).statements, []⟩ : Program).unplaced := by
  obtain ⟨ending, hending, hsource, hpieces, -, -⟩ := ofSource_eq_body ("\n".intercalate lines)
  have hbodies : (lines.flatMap body).map Token.piece =
      lines.flatMap fun line => scan line.toList := by
    rw [List.map_flatMap]
    refine List.flatMap_congr fun line _ => ?_
    obtain ⟨-, -, -, hline, -⟩ := ofSource_eq_body line
    exact hline
  have htokens : (TokenList.ofSource ("\n".intercalate lines)).tokens.map Token.piece =
      (TokenList.mk (lines.flatMap body ++ [ending])).tokens.map Token.piece := by
    rw [hsource, List.map_append, List.map_append, hpieces, hbodies, scan_intercalate h]
  have hne : ∀ t ∈ lines.flatMap body, t.kind ≠ .eof := by
    intro t ht
    obtain ⟨line, -, ht⟩ := List.mem_flatMap.mp ht
    obtain ⟨-, -, -, -, hline, -⟩ := ofSource_eq_body line
    exact hline t ht
  rw [ofSource, unplaced_ofTokens_congr htokens, ofTokens_eq, Input.ofList_concat hne hending,
    readAll_flatMap hending h]

end Text

/-! ## One evaluation -/

namespace Eval

variable {apply : Apply} {env : ScopeId}

/-- Statements are evaluated one list after another. -/
theorem stmts_append_of_ok {ss : List Stmt} {last v : Value} {m n : Machine}
    (h : stmts apply env ss last m = .ok v n) (ts : List Stmt) :
    stmts apply env (ss ++ ts) last m = stmts apply env ts v n := by
  induction ss generalizing last m with
  | nil =>
    cases h
    rfl
  | cons s ss ih =>
    cases hs : stmt apply env s m with
    | ok w l =>
      rw [stmts_cons_of_ok hs] at h
      rw [List.cons_append, stmts_cons_of_ok hs]
      exact ih h
    | error u l => cases (bind_of_error hs (stmts apply env ss)).symm.trans h

/-- The value before statements is forgotten. -/
theorem stmts_congr_last {ss : List Stmt} (h : ss ≠ []) (last last' : Value) :
    stmts apply env ss last = stmts apply env ss last' := by
  cases ss with
  | nil => exact absurd rfl h
  | cons s ss => rfl

end Eval

namespace Transcript

variable {channels : List Channel}

@[simp] theorem text_nil : text [] channels = "" := rfl

@[simp] theorem text_append (t u : Transcript) :
    text (t ++ u) channels = text t channels ++ text u channels := by
  simp [text, String.join_append]

theorem text_printed_ofOutcome (showNull : Bool) (o : Outcome) :
    text (ofOutcome showNull o) [.printed] = "" := by
  unfold ofOutcome
  split
  · rfl
  · split <;> rfl
  all_goals rfl

end Transcript

namespace Session

variable {s : Session} {p : Program} {v : Value} {n : Machine}

/-- The statements of a program are evaluated to the end, and none of them unwinds. -/
def Completes (s : Session) (p : Program) : Prop :=
  ∃ v n, Eval.stmts (applyFunction s.machine.callBudget) s.globals p.statements .null s.machine =
    .ok v n

instance (s : Session) (p : Program) : Decidable (s.Completes p) :=
  match h : Eval.stmts (applyFunction s.machine.callBudget) s.globals p.statements .null
    s.machine with
  | .ok v n => .isTrue ⟨v, n, h⟩
  | .error u n => .isFalse fun ⟨_, _, hok⟩ => by rw [h] at hok; cases hok

theorem eval_of_ok (h : Eval.stmts (applyFunction s.machine.callBudget) s.globals p.statements .null
    s.machine = .ok v n) :
    s.eval p = (.value v, if n.printer.text.isEmpty then [] else [(.printed, n.printer.text)],
      ⟨{ n with printer := n.printer.clear }, s.globals⟩) := by
  have heval : s.machine.eval s.globals (.program p) = (.value v, n) :=
    Machine.evalWith_of_ok h
  rw [Session.eval, heval]

/-- A report shows what was printed. -/
theorem text_report (h : Eval.stmts (applyFunction s.machine.callBudget) s.globals p.statements
    .null s.machine = .ok v n) : (s.report p).text [.printed] = n.printer.text := by
  rw [report, eval_of_ok h, Transcript.text_append, Transcript.text_printed_ofOutcome]
  by_cases hempty : n.printer.text.isEmpty = true
  · simp [String.isEmpty_iff.mp hempty]
  · simp [hempty, Transcript.text]

end Session

/-! ## Line after line -/

namespace Repl

variable {s : Session} {limit : Option Nat} {line : String} {lines : List String}

/-- How the evaluation of each line that is not blank ends. -/
def outcomes : Session → List String → List Outcome
  | _, [] => []
  | s, line :: ls =>
    let others := outcomes (step s line).2 ls
    if Text.trim line.toList = [] then others else (s.eval (.ofSource line)).1 :: others

theorem statements_of_isSpaces (h : IsSpaces line) : (Program.ofSource line).statements = [] := by
  obtain ⟨ending, -, -, hpieces, -, hprogram⟩ := ofSource_eq_body line
  rw [scan_of_isSpaces h, List.map_eq_nil_iff] at hpieces
  rw [hprogram, hpieces]
  rfl

theorem trim_of_isSpaces (h : IsSpaces line) : Text.trim line.toList = [] := by
  rw [Text.trim_eq_nil_iff]
  exact fun c hc => Text.isBlank_of_isLayout (isLayout_of_isSpaces h c hc)

end Repl

/-- What is read as a semicolon is one. -/
theorem Pattern.mem_of_semicolon {text : List Char} {p : Piece} (h : Pattern text p)
    (hp : p.1 = .semicolon) : ';' ∈ text := by
  cases h with
  | symbol hmem =>
    have htable : ∀ p ∈ symbols, p.2 = .semicolon → ';' ∈ p.1.toList := by decide
    exact htable _ hmem hp
  | reserved hmem =>
    have htable : ∀ p ∈ reservedWords, p.2 ≠ .semicolon := by decide
    exact absurd hp (htable _ hmem)
  | digits _ | name _ _ _ | string _ => cases hp

theorem Scans.mem_of_semicolon {cs : List Char} {ps : List Piece} (h : Scans cs ps) {p : Piece}
    (hmem : p ∈ ps) (hp : p.1 = .semicolon) : ';' ∈ cs := by
  induction h with
  | done => cases hmem
  | layout _ _ ih => exact List.mem_cons_of_mem _ (ih hmem)
  | token hpattern _ _ ih =>
    rcases List.mem_cons.mp hmem with rfl | hmem
    · exact List.mem_append_left _ (hpattern.mem_of_semicolon hp)
    · exact List.mem_append_right _ (ih hmem)
  | unclosed _ =>
    cases List.mem_singleton.mp hmem
    cases hp
  | character _ _ _ _ ih =>
    rcases List.mem_cons.mp hmem with rfl | hmem
    · cases hp
    · exact List.mem_cons_of_mem _ (ih hmem)

namespace Repl

variable {s : Session} {limit : Option Nat} {line : String} {lines : List String}

/-- A line that ends with a semicolon is not blank, and there is a statement in it. -/
theorem IsFinished.evaluated (h : IsFinished line) :
    Text.trim line.toList ≠ [] ∧ ¬IsIdle line ∧ (Program.ofSource line).statements ≠ [] := by
  obtain ⟨ts, semicolon, hbody, hsemicolon⟩ := h.exists_concat
  obtain ⟨ending, hending, -, hpieces, -, hprogram⟩ := ofSource_eq_body line
  have hmem : semicolon.piece ∈ scan line.toList := by simp [← hpieces, hbody]
  have htrim : Text.trim line.toList ≠ [] := by
    rw [Ne, Text.trim_eq_nil_iff]
    intro hblank
    have hchar := (Scans.iff_scan.mpr rfl).mem_of_semicolon hmem hsemicolon
    exact absurd (hblank ';' hchar) (by decide)
  have hne : (⟨body line, ending⟩ : Input).pending ≠ [] := by simp [hbody]
  refine ⟨htrim, ?_, ?_⟩
  · rintro (hblank | hne)
    · exact htrim hblank
    · exact hne h.diagnostics
  · rw [hprogram]
    exact readAll_ne_nil hending hne

/--
What a line does to the session it does to the machine behind any printed text: it comes to its
value, and what it prints is added.
-/
theorem stmts_line (hs : s.Settled limit) (hline : IsFinished line)
    (hcompletes : s.Completes (.ofSource line)) :
    ∃ v, (s.eval (.ofSource line)).1 = .value v ∧ ∀ front last,
      Eval.stmts (applyFunction s.machine.callBudget) s.globals (Program.ofSource line).statements
          last (s.machine.reprint (.behind front)) =
        .ok v ((step s line).2.machine.reprint
          (.behind (front ++ Transcript.text (step s line).1 [.printed]))) := by
  obtain ⟨v, n, hrun⟩ := hcompletes
  obtain ⟨-, hidle, hne⟩ := hline.evaluated
  have heval := Session.eval_of_ok hrun
  obtain ⟨text, hprinter⟩ : ∃ text, n.printer = .buffer text := by
    have hclear := (hs.eval line).printer
    rw [heval] at hclear
    cases hp : n.printer with
    | silent =>
      rw [hp] at hclear
      cases hclear
    | buffer text => exact ⟨text, rfl⟩
  have hmachine (front : String) : n.reprint (.behind front) =
      Machine.reprint (.behind (front ++ text)) { n with printer := n.printer.clear } := by
    simp [Machine.reprint, hprinter, Printer.behind, Printer.clear]
  have htext : n.printer.text = text := by rw [hprinter, Printer.text]
  rw [step_of_not_isIdle hidle, Session.text_report hrun, htext, heval]
  refine ⟨v, rfl, fun front last => ?_⟩
  rw [Eval.stmts_congr_last hne last .null, Eval.stmts_reprint (Eval.letsPrint_behind front), hrun]
  exact congrArg (EStateM.Result.ok v) (hmachine front)

/-- The budget and the scope of a session stay what they are. -/
theorem callBudget_step (hs : s.Settled limit) (line : String) :
    (step s line).2.machine.callBudget = s.machine.callBudget := by
  have hcalls := (settled_step hs line).calls
  rw [Machine.callBudget, Machine.callBudget, hcalls, hs.calls]

theorem globals_step (s : Session) (line : String) : (step s line).2.globals = s.globals := by
  by_cases hidle : IsIdle line
  · rw [step_of_isIdle hidle]
  · rw [step_of_not_isIdle hidle]
    rfl

/-- The statements of all lines are evaluated as the session evaluates them line by line. -/
theorem stmts_lines (hs : s.Settled limit)
    (hlines : ∀ line ∈ lines, IsSpaces line ∨ IsFinished line)
    (hcompletes : ∀ before line after, lines = before ++ line :: after → ¬IsSpaces line →
      (sessionAfter s before).Completes (.ofSource line)) (front : String) (last : Value) :
    ∃ v n, Eval.stmts (applyFunction s.machine.callBudget) s.globals
        (lines.flatMap fun line => (Program.ofSource line).statements) last
        (s.machine.reprint (.behind front)) = .ok v n ∧
      (outcomes s lines).getLast?.getD (.value last) = .value v ∧
      n.printer = .buffer (front ++ Transcript.text (answers s lines).flatten [.printed]) := by
  -- On the lines, with what was printed before them in front and the value that came last.
  induction lines generalizing s front last with
  | nil =>
    refine ⟨last, _, rfl, rfl, ?_⟩
    show s.machine.printer.behind front = _
    rw [hs.printer]
    rfl
  | cons line lines ih =>
    obtain ⟨hline, hrest⟩ := List.forall_mem_cons.mp hlines
    have hothers : ∀ before l after, lines = before ++ l :: after → ¬IsSpaces l →
        (sessionAfter (step s line).2 before).Completes (.ofSource l) := fun before l after heq =>
      hcompletes (line :: before) l after (by rw [heq, List.cons_append])
    by_cases hspaces : IsSpaces line
    · have hstep : step s line = ([], s) := if_pos (trim_of_isSpaces hspaces)
      rw [hstep] at hothers
      simp only [List.flatMap_cons, statements_of_isSpaces hspaces, List.nil_append, outcomes,
        trim_of_isSpaces hspaces, if_true, answers, hstep, List.flatten_cons]
      exact ih hs hrest hothers front last
    · have hfinished := hline.resolve_left hspaces
      obtain ⟨v, houtcome, hrun⟩ := stmts_line hs hfinished (hcompletes [] line lines rfl hspaces)
      obtain ⟨w, l, hrun', houtcome', hprinter⟩ := ih (settled_step hs line) hrest hothers
        (front ++ Transcript.text (step s line).1 [.printed]) v
      rw [callBudget_step hs, globals_step] at hrun'
      refine ⟨w, l, ?_, ?_, ?_⟩
      · rw [List.flatMap_cons, Eval.stmts_append_of_ok (hrun front last), hrun']
      · simpa [outcomes, hfinished.evaluated.1, houtcome, List.getLast?_cons] using houtcome'
      · simpa [answers, String.append_assoc] using hprinter

/-- Prompts are not printed by any program. -/
theorem text_printed_written (as : List Transcript) :
    Transcript.text (written as) [.printed] = Transcript.text as.flatten [.printed] := by
  have hprompt : Transcript.text prompt [.printed] = "" := rfl
  have hline : Transcript.text (Transcript.line "") [.printed] = "" := rfl
  have hanswers : ∀ as : List Transcript, Transcript.text (as.flatMap (· ++ prompt)) [.printed] =
      Transcript.text as.flatten [.printed] := by
    intro as
    induction as with
    | nil => rfl
    | cons a as ih => simp [ih, hprompt]
  simp [written, hprompt, hline, hanswers]

end Repl

/-- Complete statements do not evaluate to an error value. -/
theorem Eval.ne_error_of_stmts {budget : Nat} {env : ScopeId} {ss : List Stmt} {m n : Machine}
    {v : Value} (hss : ∀ s ∈ ss, s.Complete) (hm : m.heap.Sound .complete)
    (h : stmts (applyFunction budget) env ss .null m = .ok v n) : ∀ text, v ≠ .error text := by
  have ha := (Discipline.lawfulCalls_data .complete).applyFunction budget
  have hnull : (Discipline.data Shape.complete).Good m .null := trivial
  have hkeeps := (Discipline.lawful_data .complete env).stmts ha ss (bodyHasShape_iff.mpr hss) hm
    hnull
  cases hkeeps with
  | error u n run _ _ _ =>
    rw [h] at run
    cases run
  | ok w l run _ _ answer =>
    rw [h] at run
    cases run
    rintro text rfl
    exact answer

namespace Command

/-- What a program printed and the value that it came to are shown. -/
theorem run_of_value {options : Options} {source : String} {v : Value} {n : Machine}
    (hdiagnostics : (Program.ofSource source).diagnostics = [])
    (heval : (Session.start options).machine.eval (Session.start options).globals
      (.program (.ofSource source)) = (.value v, n)) (hv : ∀ text, v ≠ .error text) :
    let report := run options source
    report.ending = .ok .success ∧ report.transcript.text [.printed] = n.printer.text ∧
      report.transcript.text [.output] = v.render ++ "\n" := by
  have hhas : (Program.ofSource source).hasDiagnostics = false := by
    simp [Program.hasDiagnostics, hdiagnostics]
  have hoff : Transcript.ofOutcome true (.value v) = Transcript.line v.render := by
    cases v with
    | error text => exact absurd rfl (hv text)
    | _ => rfl
  have hstatus : Outcome.status (.value v) = .success := by
    cases v with
    | error text => exact absurd rfl (hv text)
    | _ => rfl
  simp only [run, hhas, Session.eval, heval, hoff, hstatus]
  by_cases hempty : n.printer.text.isEmpty = true
  · simp [String.isEmpty_iff.mp hempty, Transcript.text, Transcript.line]
  · simp [hempty, Transcript.text, Transcript.line]

/--
Lines that are made of spaces and tabs, or have no diagnostics and end with a semicolon. If every
line of a session comes to its end without unwinding, the command that runs all of them as one text
succeeds. It prints what the session printed, and it shows the value of the last line that is not
blank, or `null` if there is none.
-/
theorem run_intercalate (options : Options) {input : List UInt8} {lines : List String}
    (h : texts? input = some lines) (hlines : ∀ line ∈ lines, IsSpaces line ∨ IsFinished line)
    (hcompletes : ∀ before line after, lines = before ++ line :: after → ¬IsSpaces line →
      (sessionAfter (.start options) before).Completes (.ofSource line)) :
    let report := run options ("\n".intercalate lines)
    report.ending = .ok .success ∧
      report.transcript.text [.printed] = (Repl.run options input).transcript.text [.printed] ∧
      ∃ v, (outcomes (.start options) lines).getLast?.getD (.value .null) = .value v ∧
        report.transcript.text [.output] = v.render ++ "\n" := by
  let start := Session.start options
  have hsettled := Session.settled_start options
  obtain ⟨v, n, hrun, houtcome, hprinter⟩ := stmts_lines hsettled hlines hcompletes "" .null
  have hstart : start.machine.reprint (.behind "") = start.machine := rfl
  rw [hstart] at hrun
  have hunplaced := Program.unplaced_ofSource_intercalate hlines
  have hdiagnostics : (Program.ofSource ("\n".intercalate lines)).diagnostics = [] := by
    simpa [Program.unplaced] using congrArg Program.diagnostics hunplaced
  have hcomplete : ∀ s ∈ lines.flatMap fun line => (Program.ofSource line).statements,
      s.Complete := by
    intro s hs
    obtain ⟨line, hline, hs⟩ := List.mem_flatMap.mp hs
    have hmissing := missing?_eq_none_of_mem (closes_body (hlines line hline)).2 hs
    exact Program.complete_of_mem_ofSource hs hmissing
  have hordinary := Eval.ne_error_of_stmts hcomplete hsettled.sound hrun
  -- The joined program differs from the statements of the lines in places only.
  obtain ⟨hbare, hsame⟩ := Program.evalWith_of_unplaced hunplaced start.machine
    start.machine.callBudget start.globals
  have hflat : start.machine.evalWith start.machine.callBudget start.globals
      (.program ⟨lines.flatMap fun line => (Program.ofSource line).statements, []⟩) =
        (.value v, n) := Machine.evalWith_of_ok hrun
  rw [hflat] at hbare hsame
  have halike := Outcome.alike_of_bare hbare.symm nofun
  generalize hjoined : start.machine.evalWith start.machine.callBudget start.globals
    (.program (.ofSource ("\n".intercalate lines))) = joined at hsame halike
  obtain ⟨o, l⟩ := joined
  cases halike with
  | @value _ w hvw =>
    have hw : ∀ text, w ≠ .error text := fun text => mt (hvw.message text).mpr (hordinary text)
    obtain ⟨hending, hprinted, houtput⟩ := run_of_value hdiagnostics hjoined hw
    refine ⟨hending, ?_, v, houtcome, ?_⟩
    · rw [hprinted, hsame, hprinter, run_of_texts? h, text_printed_written]
      exact String.empty_append
    · rw [houtput, hvw.text]

/-- Two lines with an empty one between them. -/
theorem run_intercalate_puts :
    let lines := ["let x = 1;", "", "puts(x); x + 1;"]
    let input := utf8Bytes "let x = 1;\n\nputs(x); x + 1;".toList
    texts? input = some lines ∧ (∀ line ∈ lines, IsSpaces line ∨ IsFinished line) ∧
      (∀ before line after, lines = before ++ line :: after → ¬IsSpaces line →
        (sessionAfter (.start {}) before).Completes (.ofSource line)) ∧
      let report := run {} "let x = 1;\n\nputs(x); x + 1;"
      report.ending = .ok .success ∧
        report.transcript.text [.printed] = (Repl.run {} input).transcript.text [.printed] ∧
        ∃ v, (outcomes (.start {}) lines).getLast?.getD (.value .null) = .value v ∧
          report.transcript.text [.output] = v.render ++ "\n" := by
  intro lines input
  have htexts : texts? input = some lines := by decide +kernel
  have hlines : ∀ line ∈ lines, IsSpaces line ∨ IsFinished line := by
    simp only [lines, List.forall_mem_cons]
    exact ⟨.inr ⟨by decide +kernel, by decide +kernel⟩, .inl nofun,
      .inr ⟨by decide +kernel, by decide +kernel⟩, nofun⟩
  have hcompletes : ∀ before line after, lines = before ++ line :: after → ¬IsSpaces line →
      (sessionAfter (.start {}) before).Completes (.ofSource line) := by
    rintro (_ | ⟨_, _ | ⟨_, _ | ⟨_, _⟩⟩⟩) line after heq hspaces
    all_goals simp only [lines, List.cons_append, List.nil_append, List.cons.injEq] at heq
    · obtain ⟨rfl, rfl⟩ := heq
      decide +kernel
    · obtain ⟨rfl, rfl, rfl⟩ := heq
      exact absurd nofun hspaces
    · obtain ⟨rfl, rfl, rfl, rfl⟩ := heq
      decide +kernel
    · simp at heq
  have hjoined : "\n".intercalate lines = "let x = 1;\n\nputs(x); x + 1;" := by decide
  have hrun := run_intercalate {} htexts hlines hcompletes
  rw [hjoined] at hrun
  exact ⟨htexts, hlines, hcompletes, hrun⟩

end Command

end Ember
