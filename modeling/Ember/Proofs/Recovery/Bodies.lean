import Ember.Proofs.Recovery.Program

/-!
# Where recovery stops, and the braces around it

Recovery is meant to stop outside of the braces that the failed statement opened, so that no
statement of a function body is taken for one of the program. It keeps a single signed count,
though, and a `}` that closes nothing makes room in it for a later `{`.

Here the braces are counted as they match (`unclosed`), and the two counts are compared. A statement
that fails never takes a `}` it did not open, so only what recovery itself skips can drive them
apart. Every brace is closed at the stop exactly if the signed count is never lower on the way than
it is at the stop (`unclosed_at_resume`). In general that need not be so (`body_statement_resumed`).

A result of its own says when recovery does what it is meant to do: if no stray `}` is skipped, it
stops outside of all bodies (`unclosed_eq_zero_of_no_stray`).
-/

namespace Ember

open Rule Grammar

namespace Recovery

/-! ## Braces as they match -/

/--
How many braces are open once a token of this kind is read, when there are so many before it. A
closing brace closes the innermost one, and nothing if there is none.
-/
def unclosedKind : Kind → Nat → Nat
  | .lBrace, depth => depth + 1
  | .rBrace, depth => depth - 1
  | _, depth => depth

/-- How many braces are open once the tokens are read. -/
def unclosed : Nat → List Token → Nat
  | depth, [] => depth
  | depth, t :: ts => unclosed (unclosedKind t.kind depth) ts

theorem unclosed_append (depth : Nat) (ts us : List Token) :
    unclosed depth (ts ++ us) = unclosed (unclosed depth ts) us := by
  induction ts generalizing depth with
  | nil => rfl
  | cons t ts ih => exact ih _

/-- Where no closing brace is stray, the braces are counted alike. -/
theorem unclosedKind_of_nestKind {kind : Kind} {a b : Nat} (h : nestKind kind a = some b) :
    unclosedKind kind a = b := by
  cases kind
  case rBrace =>
    cases a with
    | zero => cases h
    | succ a =>
      cases h
      rfl
  case semicolon =>
    cases a with
    | zero => cases h
    | succ a =>
      cases h
      rfl
  case eof => cases h
  all_goals
    cases h
    rfl

theorem unclosed_of_nest {a b : Nat} {ts : List Token} (h : nest a ts = some b) :
    unclosed a ts = b := by
  induction ts generalizing a with
  | nil =>
    cases h
    rfl
  | cons t ts ih =>
    rw [nest] at h
    obtain ⟨m, hm, hb⟩ := Option.bind_eq_some_iff.mp h
    rw [unclosed, unclosedKind_of_nestKind hm, ih hb]

/-- A token changes the count as it changes the sum, except that the count stays at zero. -/
theorem unclosedKind_eq (depth : Nat) (t : Token) :
    (unclosedKind t.kind depth : Int) = max 0 (depth + braceChange t) := by
  unfold unclosedKind braceChange
  cases t.kind <;> simp only [] <;> omega

/--
At most `k` braces are left open if the signed count says so of the tokens and of each of their
tails. The tails are what a stray closing brace cannot make up for.
-/
theorem unclosed_le_iff (depth k : Nat) (ts : List Token) :
    unclosed depth ts ≤ k ↔
      depth + openBraces ts ≤ k ∧ ∀ s, s <:+ ts → openBraces s ≤ k := by
  induction ts generalizing depth with
  | nil =>
    show depth ≤ k ↔ (depth + 0 : Int) ≤ k ∧ _
    constructor
    · intro h
      refine ⟨by omega, ?_⟩
      intro s hs
      rw [List.suffix_nil.mp hs]
      exact Int.natCast_nonneg k
    · rintro ⟨h, -⟩
      omega
  | cons t ts ih =>
    have hstep := unclosedKind_eq depth t
    rw [unclosed, ih, openBraces]
    constructor
    · rintro ⟨hsum, htails⟩
      refine ⟨by omega, ?_⟩
      intro s hs
      rcases List.suffix_cons_iff.mp hs with rfl | hs
      · rw [openBraces]
        omega
      · exact htails s hs
    · rintro ⟨hsum, htails⟩
      have htail := htails ts (List.suffix_cons t ts)
      exact ⟨by omega, fun s hs => htails s (hs.trans (List.suffix_cons t ts))⟩

/-! ## The count at the stop -/

/-- Where recovery stops before the end, its own count is not positive. -/
theorem openBraces_skip_nonpos {depth : Int} {ts skipped : List Token}
    (hts : ts = skipped ++ skip depth ts) (hne : skip depth ts ≠ []) :
    depth + openBraces skipped ≤ 0 := by
  induction ts generalizing depth skipped with
  | nil => exact absurd rfl hne
  | cons t ts ih =>
    rw [skip] at hts hne
    by_cases hsemi : depth ≤ 0 ∧ t.kind = .semicolon
    · rw [if_pos hsemi] at hts
      have hone : skipped = [t] := List.append_cancel_right (hts.symm.trans rfl)
      rw [hone, openBraces_semicolon hsemi.2]
      omega
    rw [if_neg hsemi] at hts hne
    by_cases hstart : depth ≤ 0 ∧ startsStatement t
    · rw [if_pos hstart] at hts
      have hnil : skipped = [] := List.self_eq_append_left.mp hts
      rw [hnil, openBraces]
      omega
    rw [if_neg hstart] at hts hne
    -- The token at the front is skipped here, so it is the first of the skipped ones.
    cases skipped with
    | nil =>
      have hle := length_skip_le (depth + braceChange t) ts
      rw [List.nil_append] at hts
      rw [← hts] at hle
      exact absurd hle (Nat.not_succ_le_self _)
    | cons s skipped =>
      obtain ⟨rfl, hrest⟩ := List.cons.inj hts
      have hle := ih hrest hne
      rw [openBraces]
      omega

end Recovery

/-! ## A failed statement -/

section Failure

variable {i j : Input} {d : Diagnostic} {taken skipped : List Token}

/-- The tokens that a failed statement has taken open as many braces as they leave unclosed. -/
theorem unclosed_taken (hi : i.Ended) (h : statement (expression maxNesting) i = .error d j)
    (htaken : i.pending = taken ++ j.pending) :
    (Recovery.unclosed 0 taken : Int) = Recovery.openBraces taken := by
  obtain ⟨c, n, hij, hn, -⟩ := of_statement_error hi h
  have hc : taken = c := by
    rw [hij, Input.prepend_pending] at htaken
    exact (List.append_cancel_right htaken).symm
  rw [hc, Recovery.unclosed_of_nest hn, openBraces_of_nest hn]
  omega

/-- Where recovery stops before the end, the signed count is not positive. -/
theorem openBraces_at_resume (htaken : i.pending = taken ++ j.pending)
    (hskipped : j.pending = skipped ++ (Recovery.resume i j).pending)
    (hne : (Recovery.resume i j).pending ≠ []) : Recovery.openBraces (taken ++ skipped) ≤ 0 := by
  rw [Recovery.resume_eq htaken] at hskipped hne
  rw [Recovery.openBraces_append]
  exact Recovery.openBraces_skip_nonpos hskipped hne

/-- Behind a failed statement, every brace is closed where the signed count is at its lowest. -/
theorem unclosed_eq_zero_iff (hi : i.Ended)
    (h : statement (expression maxNesting) i = .error d j)
    (htaken : i.pending = taken ++ j.pending) :
    Recovery.unclosed 0 (taken ++ skipped) = 0 ↔
      Recovery.openBraces (taken ++ skipped) ≤ 0 ∧
        ∀ q, q <+: skipped →
          Recovery.openBraces (taken ++ skipped) ≤ Recovery.openBraces (taken ++ q) := by
  have hdepth := unclosed_taken hi h htaken
  rw [Recovery.unclosed_append, ← Nat.le_zero, Recovery.unclosed_le_iff,
    Recovery.openBraces_append, hdepth]
  -- A tail that opens more than it closes is what the count has gained since the tokens before it.
  constructor
  · rintro ⟨hsum, htails⟩
    refine ⟨hsum, ?_⟩
    rintro q ⟨s, rfl⟩
    have htail := htails s (List.suffix_append q s)
    rw [Recovery.openBraces_append, Recovery.openBraces_append]
    omega
  · rintro ⟨hsum, hlow⟩
    refine ⟨hsum, ?_⟩
    rintro s ⟨q, rfl⟩
    have hle := hlow q (List.prefix_append q s)
    rw [Recovery.openBraces_append, Recovery.openBraces_append] at hle
    omega

/-- Without a stray closing brace among the skipped tokens, recovery stops outside of all bodies. -/
theorem unclosed_eq_zero_of_no_stray (hi : i.Ended)
    (h : statement (expression maxNesting) i = .error d j)
    (htaken : i.pending = taken ++ j.pending)
    (hskipped : j.pending = skipped ++ (Recovery.resume i j).pending)
    (hstop : (Recovery.resume i j).pending ≠ [])
    (hstray : ∀ q, q <+: skipped → 0 ≤ Recovery.openBraces (taken ++ q)) :
    Recovery.unclosed 0 (taken ++ skipped) = 0 := by
  have hnonpos := openBraces_at_resume htaken hskipped hstop
  refine (unclosed_eq_zero_iff hi h htaken).mpr ⟨hnonpos, ?_⟩
  intro q hq
  exact Int.le_trans hnonpos (hstray q hq)

/--
A statement fails after the tokens `taken`, and recovery goes on past the tokens `skipped`. If that
is not the end of the input, the signed count is not positive there. Every brace of the tokens is
closed by then exactly if that is so and if the count has never been lower since the failure.
-/
theorem unclosed_at_resume (hi : i.Ended)
    (h : statement (expression maxNesting) i = .error d j)
    (htaken : i.pending = taken ++ j.pending)
    (hskipped : j.pending = skipped ++ (Recovery.resume i j).pending) :
    ((Recovery.resume i j).pending ≠ [] → Recovery.openBraces (taken ++ skipped) ≤ 0) ∧
      (Recovery.unclosed 0 (taken ++ skipped) = 0 ↔
        Recovery.openBraces (taken ++ skipped) ≤ 0 ∧
          ∀ q, q <+: skipped →
            Recovery.openBraces (taken ++ skipped) ≤ Recovery.openBraces (taken ++ q)) :=
  ⟨openBraces_at_resume htaken hskipped, unclosed_eq_zero_iff hi h htaken⟩

/-- A `let` without a name fails right behind the keyword. -/
theorem statement_of_let_assign {keyword assign z : Token} {ts : List Token}
    (hk : keyword.kind = .kwLet) (ha : assign.kind = .assign) :
    statement (expression maxNesting) ⟨keyword :: assign :: ts, z⟩
      = .error ⟨.unexpectedToken .ident, assign⟩ ⟨assign :: ts, z⟩ := by
  have hne : assign.kind ≠ .ident := by
    rw [ha]
    decide
  have hstart : statement (expression maxNesting) ⟨keyword :: assign :: ts, z⟩
      = (advance >>= bindingAfter (expression maxNesting)) ⟨keyword :: assign :: ts, z⟩ :=
    statement_of_let hk
  rw [hstart, advance_bind]
  exact bind_of_error (expect_of_ne hne)

/-- `let = fn() { a; }; b` goes on behind the body, at `b`. -/
theorem unclosed_at_resume_behind_body :
    let a := Token.synthetic .ident "a"
    let b := Token.synthetic .ident "b"
    let assign := Token.synthetic .assign "="
    let semicolon := Token.synthetic .semicolon ";"
    let taken := [Token.synthetic .kwLet "let"]
    let skipped := [assign, .synthetic .kwFn "fn", .synthetic .lParen "(", .synthetic .rParen ")",
      .synthetic .lBrace "\x7b", a, semicolon, .synthetic .rBrace "\x7d", semicolon]
    let start : Input := ⟨taken ++ skipped ++ [b], .endOfInput⟩
    let stopped : Input := ⟨skipped ++ [b], .endOfInput⟩
    statement (expression maxNesting) start = .error ⟨.unexpectedToken .ident, assign⟩ stopped ∧
      (Recovery.resume start stopped).pending = [b] ∧
      Recovery.unclosed 0 (taken ++ skipped) = 0 := by
  intro a b assign semicolon taken skipped start stopped
  have h : statement (expression maxNesting) start
      = .error ⟨.unexpectedToken .ident, assign⟩ stopped := statement_of_let_assign rfl rfl
  have htaken : start.pending = taken ++ stopped.pending := rfl
  have hresume : (Recovery.resume start stopped).pending = [b] := by decide
  have hskipped : stopped.pending = skipped ++ (Recovery.resume start stopped).pending := by
    rw [hresume]
  have hlow : ∀ q ∈ skipped.inits,
      Recovery.openBraces (taken ++ skipped) ≤ Recovery.openBraces (taken ++ q) := by decide
  have hi : start.Ended := rfl
  refine ⟨h, hresume, (unclosed_at_resume hi h htaken hskipped).2.mpr ⟨by decide, ?_⟩⟩
  exact fun q hq => hlow q ((List.mem_inits q skipped).mpr hq)

/--
`let = 1 } fn() { a; b; }` fails at `=`. The stray `}` makes room for the brace of the body, so
recovery stops past `a;` inside of it, and `b` becomes a statement of the program.
-/
theorem body_statement_resumed :
    let a := Token.synthetic .ident "a"
    let b := Token.synthetic .ident "b"
    let assign := Token.synthetic .assign "="
    let semicolon := Token.synthetic .semicolon ";"
    let closing := Token.synthetic .rBrace "\x7d"
    let taken := [Token.synthetic .kwLet "let"]
    let skipped := [assign, .synthetic .int "1", closing, .synthetic .kwFn "fn",
      .synthetic .lParen "(", .synthetic .rParen ")", .synthetic .lBrace "\x7b", a, semicolon]
    let start : Input := ⟨taken ++ skipped ++ [b, semicolon, closing], .endOfInput⟩
    let stopped : Input := ⟨skipped ++ [b, semicolon, closing], .endOfInput⟩
    statement (expression maxNesting) start = .error ⟨.unexpectedToken .ident, assign⟩ stopped ∧
      (Recovery.resume start stopped).pending = [b, semicolon, closing] ∧
      Recovery.unclosed 0 (taken ++ skipped) = 1 ∧
      (Program.ofTokens ⟨start.pending ++ [start.ending]⟩).statements
        = [.missing assign, .expression b (.identifier ⟨b, "b"⟩), .missing closing] := by
  intro a b assign semicolon closing taken skipped start stopped
  have hi : start.Ended := rfl
  have h : statement (expression maxNesting) start
      = .error ⟨.unexpectedToken .ident, assign⟩ stopped := statement_of_let_assign rfl rfl
  have hresume : Recovery.resume start stopped = ⟨[b, semicolon, closing], .endOfInput⟩ := by
    rw [Recovery.resume_eq (c := taken) rfl]
    rfl
  have hrest : (readAll ⟨[b, semicolon, closing], .endOfInput⟩).1
      = [.expression b (.identifier ⟨b, "b"⟩), .missing closing] := by rfl
  refine ⟨h, by rw [hresume], by decide, ?_⟩
  have hlist : Input.ofList ⟨start.pending ++ [start.ending]⟩ = start :=
    Input.ofList_concat (by decide) rfl
  rw [Program.ofTokens_eq, hlist, readAll_of_error hi (by decide) h, hresume, hrest]

end Failure

end Ember
