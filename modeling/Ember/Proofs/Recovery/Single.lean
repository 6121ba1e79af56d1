import Ember.Proofs.Canonical.Scan
import Ember.Proofs.Recovery.Balanced

/-!
# Texts of one expression

A text may be read as one expression, up to its end, or as a program. It is an expression exactly
when it is a program of one statement that is this expression, and otherwise there is one
diagnostic (`Expr.ofSource_iff_program`). Where the program fails in its first statement, and this
is no `let` and no `return`, that diagnostic is the first of the program.

Both readings begin with the same rule, which stops in front of the same token. The semicolon after
the expression may be left out in both. Only then do they differ: one asks for the end of the input,
and the other goes on with the next statement.
-/

namespace Ember

open Rule Grammar

section Input

variable {i j : Input} {e : Expr} {d : Diagnostic}

/-! ## The statement that an expression is -/

/-- An expression fails at once at a token that none begins with. -/
theorem expression_of_not_startsExpression (levels : Nat) (above : Precedence)
    (h : Phrase.startsExpression i.head.kind = false) :
    expression (levels + 1) above i = .error ⟨.noPrefixRule, i.head⟩ i := by
  have hoperand : operand (expression levels) i = .error ⟨.noPrefixRule, i.head⟩ i := by
    unfold operand unary
    cases hk : i.head.kind
    case ident | int | string | kwTrue | kwFalse | bang | minus | lParen | kwIf | kwFn | lBracket
        | lBrace =>
      rw [hk] at h
      cases h
    all_goals
      simp only [peek_bind, hk]
      rfl
  unfold expression
  exact bind_of_error hoperand

/-- No expression starts with `let` or `return`. -/
theorem expression_of_startsStatement (levels : Nat) (above : Precedence)
    (h : Recovery.startsStatement i.head = true) :
    expression (levels + 1) above i = .error ⟨.noPrefixRule, i.head⟩ i := by
  have hkind : i.head.kind = .kwLet ∨ i.head.kind = .kwReturn := by
    simpa [Recovery.startsStatement] using h
  refine expression_of_not_startsExpression levels above ?_
  rcases hkind with hk | hk <;> rw [hk] <;> rfl

theorem ne_of_not_startsStatement (h : ¬Recovery.startsStatement i.head = true) :
    i.head.kind ≠ .kwLet ∧ i.head.kind ≠ .kwReturn := by
  simpa [Recovery.startsStatement, not_or] using h

/-- After an expression, a semicolon is taken or there is none. -/
theorem exists_optionalSemicolon (j : Input) : ∃ k, optionalSemicolon j = .ok () k := by
  by_cases h : j.head.kind = .semicolon
  · exact ⟨j.tail, by rw [optionalSemicolon, peekKind_bind, if_pos h]; rfl⟩
  · exact ⟨j, by rw [optionalSemicolon, peekKind_bind, if_neg h]; rfl⟩

/-- Where an expression is read, a statement that starts no other way is that expression. -/
theorem statement_of_expression_ok (hs : ¬Recovery.startsStatement i.head = true)
    (he : expression maxNesting .lowest i = .ok e j) {k : Input}
    (hk : optionalSemicolon j = .ok () k) :
    statement (expression maxNesting) i = .ok (.ofExpr e) k := by
  obtain ⟨hlet, hreturn⟩ := ne_of_not_startsStatement hs
  rw [statement_of_ne hlet hreturn, bind_of_ok he, bind_of_ok hk]
  rfl

/-- A statement that starts no other way fails where the expression does. -/
theorem statement_of_expression_error (hs : ¬Recovery.startsStatement i.head = true)
    (he : expression maxNesting .lowest i = .error d j) :
    statement (expression maxNesting) i = .error d j := by
  obtain ⟨hlet, hreturn⟩ := ne_of_not_startsStatement hs
  rw [statement_of_ne hlet hreturn]
  exact bind_of_error he

theorem wholeExpression_of_error (he : expression maxNesting .lowest i = .error d j) :
    wholeExpression i = .error d j :=
  bind_of_error he

theorem Stmt.ofExpr_injective {e e' : Expr} (h : Stmt.ofExpr e = .ofExpr e') : e = e' :=
  (Stmt.expression.inj h).2

/-- A statement that starts with `let` or `return` is no expression. -/
theorem statement_ne_ofExpr (hi : i.Ended) (hs : Recovery.startsStatement i.head = true) :
    statement (expression maxNesting) i ≠ .ok (.ofExpr e) j := by
  intro h
  obtain ⟨_, n, -, -, -, hphrase⟩ := of_statement_ok hi h
  have hnested : ∃ us, Phrase.Nested .equality i.pending e n us := by
    generalize i.pending = ts, j.pending = us, hstmt : Stmt.ofExpr e = s at hphrase
    cases hphrase with
    | letBinding _ _ _ _ _ | returning _ _ _ => cases hstmt
    | ended he _ | bare he _ =>
      cases Stmt.ofExpr_injective hstmt
      exact ⟨_, he⟩
  obtain ⟨us, he⟩ := hnested
  have hstart := he.starts
  rw [← hi.head_kind] at hstart
  have hkind : i.head.kind = .kwLet ∨ i.head.kind = .kwReturn := by
    simpa [Recovery.startsStatement] using hs
  rcases hkind with hk | hk <;> rw [hk] at hstart <;> cases hstart

/-! ## Up to the end -/

/-- At the end of an input without ends in it, nothing is pending. -/
theorem head_eof_iff (hi : i.Ended) (hne : ∀ t ∈ i.pending, t.kind ≠ .eof) :
    i.head.kind = .eof ↔ i.pending = [] := by
  obtain ⟨pending, ending⟩ := i
  cases pending with
  | nil => exact ⟨fun _ => rfl, fun _ => hi⟩
  | cons t ts => exact ⟨fun h => absurd h (hne t List.mem_cons_self), nofun⟩

/-- Where the end is asked for, there is an answer exactly if the end is there. -/
theorem expect_eof_ok_iff {a : Expr} {k : Input} :
    (∃ j, (expect .eof >>= fun _ => pure a : Rule Expr) k = .ok e j) ↔
      e = a ∧ k.head.kind = .eof := by
  by_cases heof : k.head.kind = .eof
  · rw [bind_of_ok (expect_of_eq heof)]
    constructor
    · rintro ⟨_, ⟨⟩⟩
      exact ⟨rfl, heof⟩
    · rintro ⟨rfl, -⟩
      exact ⟨k.tail, rfl⟩
  · rw [bind_of_error (expect_of_ne heof)]
    constructor
    · rintro ⟨_, ⟨⟩⟩
    · rintro ⟨-, h⟩
      exact absurd h heof

/--
An expression is read up to the end exactly when it is read as a statement and nothing is left
behind it.
-/
theorem wholeExpression_ok_iff (hi : i.Ended) (hne : ∀ t ∈ i.pending, t.kind ≠ .eof) :
    (∃ j, wholeExpression i = .ok e j) ↔
      ∃ j, statement (expression maxNesting) i = .ok (.ofExpr e) j ∧ j.pending = [] := by
  by_cases hs : Recovery.startsStatement i.head = true
  · have hwhole := wholeExpression_of_error (expression_of_startsStatement 255 .lowest hs)
    constructor
    · rintro ⟨j, h⟩
      rw [hwhole] at h
      cases h
    · rintro ⟨j, h, -⟩
      exact absurd h (statement_ne_ofExpr hi hs)
  cases he : expression maxNesting .lowest i with
  | error d j =>
    have hwhole := wholeExpression_of_error he
    have hstatement := statement_of_expression_error hs he
    simp [hwhole, hstatement]
  | ok a j =>
    obtain ⟨k, hk⟩ := exists_optionalSemicolon j
    have hstatement := statement_of_expression_ok hs he hk
    have hwhole : wholeExpression i = (expect .eof >>= fun _ => pure a) k := by
      unfold wholeExpression
      rw [bind_of_ok he, bind_of_ok hk]
    -- The end is found where nothing is pending, since what is left is a part of the input.
    have hend : k.head.kind = .eof ↔ k.pending = [] := by
      obtain ⟨taken, _, hik, -⟩ := of_statement_ok hi hstatement
      refine head_eof_iff (hi.of_eq_prepend hik) fun t ht => hne t ?_
      rw [hik, Input.prepend_pending]
      exact List.mem_append_right _ ht
    rw [hwhole, expect_eof_ok_iff, hend, hstatement]
    constructor
    · rintro ⟨rfl, hnil⟩
      exact ⟨k, rfl, hnil⟩
    · rintro ⟨l, h, hl⟩
      obtain ⟨hea, rfl⟩ := EStateM.Result.ok.inj h
      exact ⟨(Stmt.ofExpr_injective hea).symm, hl⟩

/-- A program is one expression exactly when its first statement is, and nothing is left behind. -/
theorem readAll_eq_ofExpr_iff (hi : i.Ended) : readAll i = ([.ofExpr e], []) ↔
    ∃ j, statement (expression maxNesting) i = .ok (.ofExpr e) j ∧ j.pending = [] := by
  have hnil : ∀ {j : Input}, j.pending = [] → readAll j = ([], []) := by
    intro j hj
    rw [readAll, hj]
    rfl
  by_cases hne : i.pending = []
  · rw [hnil hne]
    constructor
    · nofun
    · rintro ⟨j, h, -⟩
      have hlt := (takes_statement maxNesting hi _ j h).2
      rw [hne] at hlt
      exact absurd hlt (Nat.not_lt_zero _)
  cases h : statement (expression maxNesting) i with
  | error d j =>
    rw [readAll_of_error hi hne h]
    simp
  | ok s j =>
    rw [readAll_of_ok hi hne h]
    constructor
    · intro hread
      obtain ⟨hstatements, -⟩ := Prod.mk.inj hread
      obtain ⟨rfl, hrest⟩ := List.cons.inj hstatements
      have hj := (takes_statement maxNesting hi _ j h).1
      refine ⟨j, rfl, ?_⟩
      -- Whatever is left would be read as a statement of its own, or be reported.
      by_contra hpending
      exact readAll_ne_nil hj hpending hrest
    · rintro ⟨_, ⟨⟩, hj⟩
      rw [hnil hj]

/--
Where the first statement is a placeholder, and starts with neither `let` nor `return`, its
diagnostic is that of the expression.
-/
theorem wholeExpression_of_missing (hi : i.Ended) (hs : ¬Recovery.startsStatement i.head = true)
    {t : Token} {ss : List Stmt} {ds : List Diagnostic} (h : readAll i = (.missing t :: ss, ds)) :
    ∃ d ds' j, ds = d :: ds' ∧ wholeExpression i = .error d j := by
  have hne : i.pending ≠ [] := by
    intro hnil
    rw [readAll, hnil] at h
    cases h
  cases hstatement : statement (expression maxNesting) i with
  | ok s j =>
    obtain ⟨_, _, -, -, -, hphrase⟩ := of_statement_ok hi hstatement
    rw [readAll_of_ok hi hne hstatement] at h
    cases h
    cases missing?_eq_none_of_phrase hphrase
  | error d j =>
    rw [readAll_of_error hi hne hstatement] at h
    cases h
    cases he : expression maxNesting .lowest i with
    | ok a k =>
      obtain ⟨l, hl⟩ := exists_optionalSemicolon k
      rw [statement_of_expression_ok hs he hl] at hstatement
      cases hstatement
    | error d' k =>
      rw [statement_of_expression_error hs he] at hstatement
      cases hstatement
      exact ⟨d, _, j, rfl, wholeExpression_of_error he⟩

end Input

/-! ## Texts -/

namespace Expr

/-- Reading one expression gives it without a diagnostic, or a placeholder at the one it gives. -/
theorem ofTokens_cases (l : TokenList) :
    (∃ e j, wholeExpression (Input.ofList l) = .ok e j ∧ ofTokens l = (e, [])) ∨
      ∃ d j, wholeExpression (Input.ofList l) = .error d j ∧
        ofTokens l = (.missing d.found, [d]) := by
  unfold ofTokens
  cases h : wholeExpression (Input.ofList l) with
  | ok e j => exact .inl ⟨e, j, rfl, rfl⟩
  | error d j => exact .inr ⟨d, j, rfl, rfl⟩

theorem ofTokens_eq_iff {l : TokenList} {e : Expr} :
    ofTokens l = (e, []) ↔ ∃ j, wholeExpression (Input.ofList l) = .ok e j := by
  rcases ofTokens_cases l with ⟨e', j, h, hl⟩ | ⟨d, j, h, hl⟩
  · rw [h, hl]
    constructor
    · rintro ⟨⟩
      exact ⟨j, rfl⟩
    · rintro ⟨_, ⟨⟩⟩
      rfl
  · simp [h, hl]

/-- The pending tokens of a list are those in front of its first end of input. -/
theorem kind_ne_eof_of_mem_ofList {l : TokenList} {t : Token} (ht : t ∈ (Input.ofList l).pending) :
    t.kind ≠ .eof := by
  simpa using List.all_eq_true.mp List.all_takeWhile t ht

theorem ofTokens_eq_iff_program (l : TokenList) (e : Expr) : ofTokens l = (e, []) ↔
    (Program.ofTokens l).diagnostics = [] ∧ (Program.ofTokens l).statements = [.ofExpr e] := by
  have hi := Input.ended_ofList l
  rw [ofTokens_eq_iff, wholeExpression_ok_iff hi fun t => kind_ne_eof_of_mem_ofList,
    ← readAll_eq_ofExpr_iff hi, Program.ofTokens_eq, Prod.ext_iff, and_comm]

/--
A source text is read as an expression without a diagnostic exactly when its program has none and
one statement, which is that expression. Otherwise the text is read as a placeholder at the token
that the one diagnostic found. Where the text starts with neither `let` nor `return`, and the first
statement of the program is a placeholder, this is the first diagnostic of the program.
-/
theorem ofSource_iff_program (source : String) :
    let p := Program.ofSource source
    (∀ e, ofSource source = (e, []) ↔ p.diagnostics = [] ∧ p.statements = [.ofExpr e]) ∧
      ((¬∃ e, p.diagnostics = [] ∧ p.statements = [.ofExpr e]) →
        ∃ d, ofSource source = (.missing d.found, [d])) ∧
      ∀ t ss, p.statements = .missing t :: ss →
        (∀ u ∈ (TokenList.ofSource source).tokens.head?, u.kind ≠ .kwLet ∧ u.kind ≠ .kwReturn) →
          ∃ d ds, p.diagnostics = d :: ds ∧ ofSource source = (.missing d.found, [d]) := by
  intro p
  have hagree : ∀ e, ofSource source = (e, []) ↔ p.diagnostics = [] ∧ p.statements = [.ofExpr e] :=
    ofTokens_eq_iff_program (.ofSource source)
  refine ⟨hagree, fun hnone => ?_, fun t ss hp hfirst => ?_⟩
  · rcases ofTokens_cases (.ofSource source) with ⟨e, _, -, he⟩ | ⟨d, _, -, hd⟩
    · exact absurd ⟨e, (hagree e).mp he⟩ hnone
    · exact ⟨d, hd⟩
  · obtain ⟨body, ending, hsource, -, hending, hbody⟩ := TokenList.exists_ofSource source
    have hlist := Input.ofList_concat hbody hending
    have hstarts : ¬Recovery.startsStatement (Input.ofList (.ofSource source)).head = true := by
      have hhead : (⟨body, ending⟩ : Input).head ∈ (body ++ [ending]).head? := by
        cases body <;> rfl
      rw [hsource] at hfirst ⊢
      rw [hlist]
      obtain ⟨hlet, hreturn⟩ := hfirst _ hhead
      simp [Recovery.startsStatement, hlet, hreturn]
    obtain ⟨d, ds, j, hds, hwhole⟩ := wholeExpression_of_missing
      (Input.ended_ofList (.ofSource source)) hstarts (Prod.ext hp rfl)
    refine ⟨d, ds, hds, ?_⟩
    show ofTokens _ = _
    rw [ofTokens, hwhole]

/-- The sum has no right operand, whichever way the text is read. -/
theorem ofSource_iff_program_sum : ∃ d ds, (Program.ofSource "1 + ; 2").diagnostics = d :: ds ∧
    ofSource "1 + ; 2" = (.missing d.found, [d]) := by
  let semicolon : Token := ⟨.semicolon, ";", ⟨4, 5⟩, ⟨1, 5⟩⟩
  let two : Token := ⟨.int, "2", ⟨6, 7⟩, ⟨1, 7⟩⟩
  have hstatements : (Program.ofSource "1 + ; 2").statements =
      [.missing semicolon, .expression two (.integer two 2)] := by with_unfolding_all rfl
  have hfirst : ∀ u ∈ (TokenList.ofSource "1 + ; 2").tokens.head?,
      u.kind ≠ .kwLet ∧ u.kind ≠ .kwReturn := by decide +kernel
  exact (ofSource_iff_program "1 + ; 2").2.2 semicolon _ hstatements hfirst

end Expr

end Ember
