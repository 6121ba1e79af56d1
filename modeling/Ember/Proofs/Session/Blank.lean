import Ember.Proofs.Lexing.LongestMatch
import Ember.Proofs.Lexing.Spans
import Ember.Proofs.Recovery.Single
import Ember.Proofs.Session.Lines
import Ember.Proofs.Text.Trim

/-!
# Lines that the prompt passes over

The prompt passes over a line that is blank throughout, and blank is meant in the sense of Unicode.
The lexer finds nothing on a line of layout alone, and layout is four characters of ASCII. So there
are lines on which the lexer finds something and the prompt nothing. Each of their blank characters
that is no layout is an illegal token, and the first of these is reported where the line is a
program of its own (`Program.ofSource_of_isBlank`).

Every other line is passed over, refused or evaluated as the program that it is. Which of the three
does not depend on the session (`Repl.loop_by_treatment`).
-/

namespace Ember

/-- Nothing but blank characters. -/
def IsBlank (cs : List Char) : Prop := ∀ c ∈ cs, Text.isBlank c = true

/-! ## The tokens of a blank text -/

theorem not_isWordPart_of_isBlank {c : Char} (h : Text.isBlank c = true) :
    isWordPart c = false := by
  -- Blank characters are below the digits or beyond ASCII.
  have hrange : c.toNat ≤ 0x20 ∨ 0x85 ≤ c.toNat := by
    simp only [Text.isBlank, Bool.or_eq_true, Bool.and_eq_true, decide_eq_true_eq,
      beq_iff_eq] at h
    omega
  rw [← Bool.not_eq_true, isWordPart_iff]
  rintro ((⟨hlow, hhigh⟩ | ⟨hlow, hhigh⟩ | rfl) | ⟨hlow, hhigh⟩)
  case inl.inr.inr => exact absurd hrange (by decide)
  all_goals
    have hlow := UInt32.le_iff_toNat_le.mp hlow
    have hhigh := UInt32.le_iff_toNat_le.mp hhigh
    simp only [Char.toNat, Char.reduceVal, UInt32.reduceToNat] at hlow hhigh hrange
    omega

/-- A blank character that is no layout is a stray one. -/
theorem isStray_of_isBlank {c : Char} (h : Text.isBlank c = true)
    (hlayout : Text.isLayout c = false) : isStray c = true := by
  have hpart := not_isWordPart_of_isBlank h
  refine isStray_iff.mpr ⟨hlayout, ?_, ?_, ?_, ?_⟩
  · rw [← Bool.not_eq_true]
    intro hdigit
    simp [isWordPart_of_isDigit hdigit] at hpart
  · rw [← Bool.not_eq_true]
    intro hstart
    simp [isWordPart_of_isWordStart hstart] at hpart
  · rintro rfl
    exact absurd h (by decide)
  · rw [Option.eq_none_iff_forall_ne_some]
    intro kind hk
    unfold Kind.ofSymbol? at hk
    -- A blank character is none of the symbols.
    iterate 17
      rcases of_ite_eq_some hk with ⟨rfl, -⟩ | hk
      · exact absurd h (by decide)
    cases hk

/-- Of a blank text, what is no layout is illegal. -/
theorem scan_of_isBlank {cs : List Char} (h : IsBlank cs) :
    scan cs = (cs.filter fun c => !Text.isLayout c).map fun c => (.illegal, String.ofList [c]) := by
  induction cs with
  | nil => exact scan_nil
  | cons c cs ih =>
    obtain ⟨hc, hcs⟩ := List.forall_mem_cons.mp h
    by_cases hlayout : Text.isLayout c = true
    · rw [scan_layout hlayout, ih hcs]
      simp [hlayout]
    · rw [Bool.not_eq_true] at hlayout
      rw [scan_stray (isStray_of_isBlank hc hlayout), ih hcs]
      simp [hlayout]

/-- A text without a lexeme is layout. -/
theorem scan_eq_nil_iff {cs : List Char} : scan cs = [] ↔ IsLayout cs := by
  rw [IsLayout, ← List.dropWhile_eq_nil_iff]
  cases h : cs.dropWhile Text.isLayout with
  | nil =>
    have hnil : scan cs = scan [] := scan_of_dropWhile_eq h
    simp [hnil]
  | cons c ds => simp [scan_of_cons h]

/-- On layout, and on nothing else, the lexer finds no token but the end of input. -/
theorem TokenList.kinds_eq_eof_iff {source : String} :
    (ofSource source).tokens.map Token.kind = [.eof] ↔ IsLayout source.toList := by
  have hpieces : (ofSource source).tokens.map Token.piece = scan source.toList ++ [(.eof, "")] :=
    map_piece_tokens (.ofString source)
  have hkinds : (ofSource source).tokens.map Token.kind =
      (scan source.toList).map Prod.fst ++ [.eof] := by
    rw [← List.map_singleton (f := Prod.fst) (a := (Kind.eof, "")), ← List.map_append, ← hpieces,
      List.map_map]
    rfl
  rw [hkinds, ← scan_eq_nil_iff]
  simp

/-! ## The program of a blank text -/

/-- Recovery does not stop at illegal tokens. -/
theorem Recovery.skip_of_illegal {ts : List Token} (h : ∀ t ∈ ts, t.kind = .illegal)
    (depth : Int) : skip depth ts = [] := by
  induction ts generalizing depth with
  | nil => rfl
  | cons t ts ih =>
    obtain ⟨ht, hts⟩ := List.forall_mem_cons.mp h
    rw [skip, if_neg (by simp [ht]), if_neg (by simp [startsStatement, ht]), ih hts]

/-- Illegal tokens are one statement that fails at the first of them. -/
theorem readAll_of_illegal {t ending : Token} {ts : List Token} (hending : ending.kind = .eof)
    (h : ∀ u ∈ t :: ts, u.kind = .illegal) :
    readAll ⟨t :: ts, ending⟩ = ([.missing t], [⟨.noPrefixRule, t⟩]) := by
  have hi : (⟨t :: ts, ending⟩ : Input).Ended := hending
  have ht : t.kind = .illegal := h t List.mem_cons_self
  have hfails : Grammar.statement (Grammar.expression maxNesting) ⟨t :: ts, ending⟩ =
      .error ⟨.noPrefixRule, t⟩ ⟨t :: ts, ending⟩ := by
    refine statement_of_expression_error ?_ (expression_of_not_startsExpression _ _ ?_)
    · simp [Recovery.startsStatement, ht]
    · rw [Input.head_cons, ht]
      rfl
  have hresume : Recovery.resume ⟨t :: ts, ending⟩ ⟨t :: ts, ending⟩ = ⟨[], ending⟩ := by
    rw [Recovery.resume_eq (c := []) rfl, Recovery.skip_of_illegal h]
  rw [readAll_of_error hi (List.cons_ne_nil t ts) hfails, hresume]
  rfl

namespace Program

variable {source : String}

/-- The program of layout has no statement. -/
theorem ofSource_of_isLayout (h : IsLayout source.toList) : ofSource source = ⟨[], []⟩ := by
  obtain ⟨body, ending, hsource, hpieces, hending, hbody⟩ := TokenList.exists_ofSource source
  rw [scan_eq_nil_iff.mpr h, List.map_eq_nil_iff] at hpieces
  subst hpieces
  rw [ofSource, hsource, ofTokens_eq, Input.ofList_concat hbody hending]
  rfl

/-- The program of a blank text that is no layout fails at its first token. -/
theorem ofSource_of_isBlank (h : IsBlank source.toList) (hlayout : ¬IsLayout source.toList) :
    ∃ t c, (TokenList.ofSource source).tokens.head? = some t ∧ Text.isBlank c = true ∧
      t.piece = (.illegal, String.ofList [c]) ∧
      ofSource source = ⟨[.missing t], [⟨.noPrefixRule, t⟩]⟩ := by
  obtain ⟨body, ending, hsource, hpieces, hending, hbody⟩ := TokenList.exists_ofSource source
  have hillegal : ∀ u ∈ body, u.kind = .illegal := by
    intro u hu
    have hpiece := List.mem_map_of_mem (f := Token.piece) hu
    rw [hpieces, scan_of_isBlank h] at hpiece
    obtain ⟨c, -, hc⟩ := List.mem_map.mp hpiece
    exact (congrArg Prod.fst hc).symm
  have hne : body ≠ [] := by
    rintro rfl
    exact hlayout (scan_eq_nil_iff.mp hpieces.symm)
  obtain ⟨t, ts, rfl⟩ := List.exists_cons_of_ne_nil hne
  have hpiece : t.piece ∈ scan source.toList := hpieces ▸ List.mem_map_of_mem List.mem_cons_self
  rw [scan_of_isBlank h] at hpiece
  obtain ⟨c, hc, hpiece⟩ := List.mem_map.mp hpiece
  refine ⟨t, c, by rw [hsource]; rfl, h c (List.mem_of_mem_filter hc), hpiece.symm, ?_⟩
  rw [ofSource, hsource, ofTokens_eq, Input.ofList_concat hbody hending,
    readAll_of_illegal hending hillegal]

end Program

/-- What is reported at a token of one blank character. -/
theorem Diagnostic.code_of_isBlank {t : Token} {c : Char} (h : Text.isBlank c = true)
    (ht : t.piece = (.illegal, String.ofList [c])) (reason : Reason) :
    code ⟨reason, t⟩ = .unknownCharacter := by
  obtain ⟨hkind, hliteral⟩ := Prod.mk.inj ht
  have hquote : c ≠ '"' := by
    rintro rfl
    exact absurd h (by decide)
  rw [code, if_pos hkind, hliteral, if_neg (by simp [hquote])]

/-! ## What the prompt does with a line -/

namespace Repl

/-- What the prompt does with a line, whatever the session. -/
inductive Treatment where
  | passOver
  /-- These diagnostics are written. -/
  | refuse (ds : List Diagnostic)
  | evaluate (p : Program)

namespace Treatment

/-- What is written, and the session afterwards. -/
def carryOut (s : Session) : Treatment → Transcript × Session
  | passOver => ([], s)
  | refuse ds => (.ofDiagnostics ds, s)
  | evaluate p => (s.report p, (s.eval p).2.2)

/-- The report of a line that is treated like that where it is a program of its own. -/
def alone (options : Options) : Treatment → Report
  | passOver => ⟨.line Value.null.render, .ok .success⟩
  | refuse ds => ⟨.ofDiagnostics ds, .ok .failure⟩
  | evaluate p =>
    let (outcome, printed, _) := (Session.start options).eval p
    ⟨printed ++ .ofOutcome true outcome, .ok outcome.status⟩

end Treatment

/-- How a line is treated. -/
def treatment (line : String) : Treatment :=
  if line.toList.all Text.isBlank then .passOver
  else
    match (Program.ofSource line).diagnostics with
    | [] => .evaluate (.ofSource line)
    | d :: ds => .refuse (d :: ds)

variable {line : String}

theorem treatment_eq_passOver_iff : treatment line = .passOver ↔ IsBlank line.toList := by
  rw [IsBlank, ← List.all_eq_true]
  unfold treatment
  split
  · simp_all
  · split <;> simp_all

theorem ne_nil_of_treatment_eq_refuse {ds : List Diagnostic} (h : treatment line = .refuse ds) :
    ds ≠ [] := by
  unfold treatment at h
  split at h
  · cases h
  · split at h <;> cases h
    exact List.cons_ne_nil _ _

/-- The prompt does with a line what the treatment of the line says. -/
theorem step_eq_carryOut (s : Session) (line : String) :
    step s line = (treatment line).carryOut s := by
  by_cases hblank : IsBlank line.toList
  · have htrim : Text.trim line.toList = [] := (Text.trim_eq_nil_iff _).mpr hblank
    rw [treatment_eq_passOver_iff.mpr hblank, step, if_pos htrim]
    rfl
  · have htrim : Text.trim line.toList ≠ [] := mt (Text.trim_eq_nil_iff _).mp hblank
    have hall : ¬line.toList.all Text.isBlank = true := by rwa [List.all_eq_true]
    unfold treatment
    rw [if_neg hall]
    cases hds : (Program.ofSource line).diagnostics with
    | nil => exact step_of_not_isIdle (by simp [IsIdle, htrim, hds]) s
    | cons d ds =>
      rw [step, if_neg htrim]
      simp only [Program.hasDiagnostics, hds]
      rfl

/-- Where the line is a program of its own, it is reported on as its treatment says. -/
theorem run_eq_alone (options : Options) (h : IsBlank line.toList → IsLayout line.toList) :
    Command.run options line = (treatment line).alone options := by
  by_cases hblank : IsBlank line.toList
  · rw [treatment_eq_passOver_iff.mpr hblank, Command.run,
      Program.ofSource_of_isLayout (h hblank)]
    rfl
  · have hall : ¬line.toList.all Text.isBlank = true := by rwa [List.all_eq_true]
    unfold treatment Command.run
    rw [if_neg hall]
    cases hds : (Program.ofSource line).diagnostics with
    | nil => simp only [Program.hasDiagnostics, hds]; rfl
    | cons d ds => simp only [Program.hasDiagnostics, hds]; rfl

/-- A blank line that is no layout is passed over, but as a program of its own it is refused. -/
theorem exists_run_of_isBlank (h : IsBlank line.toList) (hlayout : ¬IsLayout line.toList) :
    ∃ d, d.code = .unknownCharacter ∧
      ∀ options, Command.run options line = ⟨.ofDiagnostics [d], .ok .failure⟩ := by
  obtain ⟨t, c, -, hc, ht, hp⟩ := Program.ofSource_of_isBlank h hlayout
  refine ⟨⟨.noPrefixRule, t⟩, Diagnostic.code_of_isBlank hc ht _, fun options => ?_⟩
  rw [Command.run, hp]
  rfl

theorem run_eq_alone_iff (options : Options) :
    Command.run options line = (treatment line).alone options ↔
      (IsBlank line.toList → IsLayout line.toList) := by
  refine ⟨fun h hblank => ?_, run_eq_alone options⟩
  by_contra hlayout
  obtain ⟨d, -, hrun⟩ := exists_run_of_isBlank hblank hlayout
  rw [treatment_eq_passOver_iff.mpr hblank, hrun] at h
  cases congrArg Report.ending h

/--
A line of the input is passed over, refused with at least one diagnostic, or evaluated, whatever the
session. It is passed over if it is blank throughout. This is when the lexer finds nothing on it and
only then, and the line is reported on as if it were a program of its own, unless the line is blank
throughout but has a character that is no layout. As a program of its own such a line is refused
with the diagnostic for a character that the language does not use.
-/
theorem loop_by_treatment {bytes : List UInt8}
    (h : String.fromUTF8? bytes.toByteArray = some line) :
    (∀ s rest, loop s (bytes :: rest) =
      (loop ((treatment line).carryOut s).2 rest).after
        (((treatment line).carryOut s).1 ++ prompt)) ∧
      (∀ ds, treatment line = .refuse ds → ds ≠ []) ∧
      (treatment line = .passOver ↔ IsBlank line.toList) ∧
      ((treatment line = .passOver ↔ (TokenList.ofSource line).tokens.map Token.kind = [.eof]) ↔
        (IsBlank line.toList → IsLayout line.toList)) ∧
      (∀ options, Command.run options line = (treatment line).alone options ↔
        (IsBlank line.toList → IsLayout line.toList)) ∧
      (IsBlank line.toList → ¬IsLayout line.toList → ∃ d, d.code = .unknownCharacter ∧
        ∀ options, Command.run options line = ⟨.ofDiagnostics [d], .ok .failure⟩) := by
  refine ⟨fun s rest => ?_, fun _ => ne_nil_of_treatment_eq_refuse, treatment_eq_passOver_iff, ?_,
    run_eq_alone_iff, exists_run_of_isBlank⟩
  · rw [loop, h]
    simp only [step_eq_carryOut]
  · have hblank : IsLayout line.toList → IsBlank line.toList :=
      fun hlayout c hc => Text.isBlank_of_isLayout (hlayout c hc)
    rw [treatment_eq_passOver_iff, TokenList.kinds_eq_eof_iff]
    exact ⟨Iff.mp, fun hlayout => ⟨hlayout, hblank⟩⟩

/-- A line of a space and a tab is passed over, and there is no token on it. -/
theorem loop_by_treatment_spaces :
    let bytes : List UInt8 := [0x20, 0x09]
    String.fromUTF8? bytes.toByteArray = some " \t" ∧
      (∀ s rest, loop s (bytes :: rest) = (loop s rest).after prompt) ∧
      (TokenList.ofSource " \t").tokens.map Token.kind = [.eof] := by
  intro bytes
  have hline : String.fromUTF8? bytes.toByteArray = some " \t" := by decide +kernel
  have hlayout : IsLayout " \t".toList := List.all_eq_true.mp (by decide)
  have hpassed : treatment " \t" = .passOver := by rfl
  obtain ⟨hloop, -, -, hkinds, -⟩ := loop_by_treatment hline
  refine ⟨hline, fun s rest => ?_, (hkinds.mpr fun _ => hlayout).mp hpassed⟩
  rw [hloop s rest, hpassed]
  rfl

/-- A no-break space is passed over, although it is a token, and reported in a program. -/
theorem step_noBreakSpace :
    let line := "\u00a0"
    treatment line = .passOver ∧ (∀ s, step s line = ([], s)) ∧
      (TokenList.ofSource line).tokens.map Token.kind = [.illegal, .eof] ∧
      ¬(treatment line = .passOver ↔ (TokenList.ofSource line).tokens.map Token.kind = [.eof]) ∧
      Command.run {} line =
        ⟨[(.messages, "1:1: [E0002] illegal token \"\\u\x7ba0\x7d\"\n")], .ok .failure⟩ := by
  intro line
  have hpassed : treatment line = .passOver :=
    treatment_eq_passOver_iff.mpr (List.all_eq_true.mp (by decide))
  have hkinds : (TokenList.ofSource line).tokens.map Token.kind = [.illegal, .eof] := by
    decide +kernel
  refine ⟨hpassed, fun s => ?_, hkinds, fun h => ?_, ?_⟩
  · rw [step_eq_carryOut, hpassed]
    rfl
  · have heof := h.mp hpassed
    rw [hkinds] at heof
    cases heof
  · have hrefused : (Program.ofSource line).hasDiagnostics = true := by decide +kernel
    have hwritten : Transcript.ofDiagnostics (Program.ofSource line).diagnostics =
        [(.messages, "1:1: [E0002] illegal token \"\\u\x7ba0\x7d\"\n")] := by decide +kernel
    rw [Command.run, if_pos hrefused, hwritten]

end Repl

end Ember
