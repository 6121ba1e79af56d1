import Ember.Proofs.Recovery.Statement
import Mathlib.Data.List.Infix

/-!
# Recovery is local

Tokens that close every brace they open and end in a semicolon are parsed alike whatever stands
behind them, however malformed they are: the program that the whole list gives is the program of
these tokens followed by the program of the rest (`Program.ofTokens_append`).

A statement that begins in such a stretch of tokens stops inside it, because the last semicolon
stands outside of all braces and no statement goes past one (`statement_of_closes`). Recovery then
stops inside it too, at that semicolon at the latest (`skip_append`), and what is left of the
stretch is again one of the same form. So the induction is on the tokens, one statement a step.
-/

namespace Ember

open Rule Grammar

/-! ## One statement after another -/

namespace Recovery

/-- Where parsing goes on when the statement that failed has taken the tokens `c`. -/
theorem resume_eq {i j : Input} {c : List Token} (h : i.pending = c ++ j.pending) :
    resume i j = ⟨skip (openBraces c) j.pending, j.ending⟩ := by
  have hlen : i.pending.length - j.pending.length = c.length := by
    rw [h, List.length_append]
    omega
  unfold resume
  rw [hlen, h, List.take_left]

theorem ended_resume {i j : Input} (hj : j.Ended) : (resume i j).Ended := hj

theorem length_skip_le (depth : Int) (ts : List Token) : (skip depth ts).length ≤ ts.length :=
  (skip_suffix depth ts).length_le

/-- Only a `let` or `return` stays where it is. -/
theorem length_skip_lt {depth : Int} {t : Token} {ts : List Token}
    (h : startsStatement t = false) : (skip depth (t :: ts)).length < (t :: ts).length := by
  unfold skip
  split
  · exact Nat.lt_succ_self _
  split
  · next hs =>
    rw [h] at hs
    exact absurd hs.2 Bool.false_ne_true
  · exact Nat.lt_succ_of_le (length_skip_le _ ts)

end Recovery

section Loop

variable {i j : Input} {d : Diagnostic}

/-- A statement that failed has stopped inside its input, at the token it reports. -/
theorem of_statement_error (hi : i.Ended)
    (h : statement (expression maxNesting) i = .error d j) :
    ∃ taken n, i = j.prepend taken ∧ nest 0 taken = some n ∧ d.found = j.head ∧
      ∀ k : Input, k.Ended → k.head = j.head →
        statement (expression maxNesting) (k.prepend taken) = .error d k :=
  (settles_statement (local_expression maxNesting) hi).of_error hi h

/-- After a failure, parsing goes on with fewer tokens. -/
theorem length_resume_lt (hi : i.Ended) (hne : i.pending ≠ [])
    (h : statement (expression maxNesting) i = .error d j) :
    (Recovery.resume i j).pending.length < i.pending.length := by
  obtain ⟨c, n, hij, -⟩ := of_statement_error hi h
  have hlt := length_lt_of_startsStatement (j := j) (d := d) (local_expression maxNesting) hi
  have hpending : i.pending = c ++ j.pending := by rw [hij, Input.prepend_pending]
  rw [Recovery.resume_eq hpending, hpending]
  -- If the statement took a token that is enough, and if it took none recovery has to take one.
  show (Recovery.skip (Recovery.openBraces c) j.pending).length < (c ++ j.pending).length
  cases c with
  | cons t c =>
    rw [List.length_append, List.length_cons]
    have hle := Recovery.length_skip_le (Recovery.openBraces (t :: c)) j.pending
    omega
  | nil =>
    rw [Input.prepend_nil] at hij
    subst hij
    obtain ⟨t, ts, hts⟩ := List.exists_cons_of_ne_nil hne
    have hhead : i.head = t := by
      unfold Input.head
      rw [hts]
      rfl
    have hstarts : Recovery.startsStatement t = false := by
      rw [← hhead, ← Bool.not_eq_true]
      exact fun hs => Nat.lt_irrefl _ (hlt hs h)
    rw [List.nil_append, hts]
    exact Recovery.length_skip_lt hstarts

/-- A statement takes a token, and so does recovery: any bound that is large enough will do. -/
theorem readStatements_eq_of_le : ∀ (n m : Nat) (i : Input), i.Ended → i.pending.length ≤ n →
    i.pending.length ≤ m → readStatements n i = readStatements m i
  | 0, m, i, _, hn, _ => by
    have hnil : i.pending = [] := List.length_eq_zero_iff.mp (Nat.le_zero.mp hn)
    cases m with
    | zero => rfl
    | succ m =>
      rw [readStatements, readStatements, hnil]
      rfl
  | n + 1, 0, i, _, _, hm => by
    have hnil : i.pending = [] := List.length_eq_zero_iff.mp (Nat.le_zero.mp hm)
    rw [readStatements, readStatements, hnil]
    rfl
  | n + 1, m + 1, i, hi, hn, hm => by
    unfold readStatements
    split
    · rfl
    next hne =>
    rw [List.isEmpty_iff] at hne
    cases h : statement (expression maxNesting) i with
    | ok s j =>
      obtain ⟨hj, hlt⟩ := takes_statement maxNesting hi s j h
      show (s :: (readStatements n j).1, _) = (s :: (readStatements m j).1, _)
      rw [readStatements_eq_of_le n m j hj (by omega) (by omega)]
    | error d j =>
      have hlt := length_resume_lt hi hne h
      obtain ⟨c, _, hij, -⟩ := of_statement_error hi h
      have hj : (Recovery.resume i j).Ended := Recovery.ended_resume (hi.of_eq_prepend hij)
      show (Stmt.missing d.found :: (readStatements n (Recovery.resume i j)).1, _)
        = (Stmt.missing d.found :: (readStatements m (Recovery.resume i j)).1, _)
      rw [readStatements_eq_of_le n m _ hj (by omega) (by omega)]

/-- Parses statements up to the end of the input. -/
def readAll (i : Input) : List Stmt × List Diagnostic := readStatements i.pending.length i

theorem readAll_of_ok {s : Stmt} (hi : i.Ended) (hne : i.pending ≠ [])
    (h : statement (expression maxNesting) i = .ok s j) :
    readAll i = (s :: (readAll j).1, (readAll j).2) := by
  obtain ⟨hj, hlt⟩ := takes_statement maxNesting hi s j h
  obtain ⟨n, hn⟩ : ∃ n, i.pending.length = n + 1 := Nat.exists_eq_succ_of_ne_zero (by omega)
  unfold readAll
  rw [hn, readStatements, if_neg (by rwa [List.isEmpty_iff]), h]
  show (s :: (readStatements n j).1, _) = _
  rw [readStatements_eq_of_le n j.pending.length j hj (by omega) (Nat.le_refl _)]

theorem readAll_of_error (hi : i.Ended) (hne : i.pending ≠ [])
    (h : statement (expression maxNesting) i = .error d j) :
    readAll i = (.missing d.found :: (readAll (Recovery.resume i j)).1,
      d :: (readAll (Recovery.resume i j)).2) := by
  have hlt := length_resume_lt hi hne h
  obtain ⟨n, hn⟩ : ∃ n, i.pending.length = n + 1 := Nat.exists_eq_succ_of_ne_zero (by omega)
  obtain ⟨c, _, hij, -⟩ := of_statement_error hi h
  have hj : (Recovery.resume i j).Ended := Recovery.ended_resume (hi.of_eq_prepend hij)
  unfold readAll
  rw [hn, readStatements, if_neg (by rwa [List.isEmpty_iff]), h]
  show (Stmt.missing d.found :: (readStatements n (Recovery.resume i j)).1, _) = _
  rw [readStatements_eq_of_le n _ _ hj (by omega) (Nat.le_refl _)]

theorem Program.ofTokens_eq (l : TokenList) :
    Program.ofTokens l = ⟨(readAll (Input.ofList l)).1, (readAll (Input.ofList l)).2⟩ := rfl

end Loop

/-! ## Tokens that close what they open -/

/--
From so many open braces, the tokens close them all and never one more, and they end in a semicolon
if there are any.
-/
structure Closes (depth : Int) (ts : List Token) : Prop where
  nonneg : ∀ q, q <+: ts → 0 ≤ depth + Recovery.openBraces q
  level : depth + Recovery.openBraces ts = 0
  semicolon : ∀ t ∈ ts.getLast?, t.kind = .semicolon

instance (depth : Int) (ts : List Token) : Decidable (Closes depth ts) :=
  decidable_of_iff
    ((∀ q ∈ ts.inits, 0 ≤ depth + Recovery.openBraces q) ∧
      depth + Recovery.openBraces ts = 0 ∧ ∀ t ∈ ts.getLast?, t.kind = .semicolon)
    ⟨fun ⟨hn, hl, hs⟩ => ⟨fun q hq => hn q ((List.mem_inits q ts).mpr hq), hl, hs⟩,
      fun ⟨hn, hl, hs⟩ => ⟨fun q hq => hn q ((List.mem_inits q ts).mp hq), hl, hs⟩⟩

/-- A semicolon opens and closes nothing. -/
theorem openBraces_semicolon {s : Token} (hs : s.kind = .semicolon) :
    Recovery.openBraces [s] = 0 := by
  simp [Recovery.openBraces, Recovery.braceChange, hs]

namespace Closes

variable {depth : Int} {q ts us : List Token}

theorem nil : Closes 0 [] where
  nonneg := by
    intro q hq
    rw [List.prefix_nil.mp hq]
    exact Int.le_refl 0
  level := rfl
  semicolon := by
    intro t ht
    cases ht

/-- What is left when some of the tokens are gone. -/
theorem of_append (h : Closes depth (q ++ ts)) : Closes (depth + Recovery.openBraces q) ts where
  nonneg := by
    intro p hp
    have hle := h.nonneg (q ++ p) ((List.prefix_append_right_inj q).mpr hp)
    rw [Recovery.openBraces_append] at hle
    omega
  level := by
    have heq := h.level
    rw [Recovery.openBraces_append] at heq
    omega
  semicolon := by
    intro t ht
    refine h.semicolon t ?_
    rw [List.getLast?_append, ht]
    rfl

theorem of_append_of_level (h : Closes depth (q ++ ts)) (hq : Recovery.openBraces q = 0) :
    Closes depth ts := by
  have hrest := h.of_append
  rwa [hq, Int.add_zero] at hrest

theorem depth_nonneg (h : Closes depth ts) : 0 ≤ depth := by
  have hle := h.nonneg [] List.nil_prefix
  simpa [Recovery.openBraces] using hle

/-- The last token is a semicolon outside of all braces. -/
theorem exists_concat (h : Closes depth ts) (hne : ts ≠ []) :
    ∃ us s, ts = us ++ [s] ∧ s.kind = .semicolon ∧ depth + Recovery.openBraces us = 0 := by
  have hlast := h.semicolon (ts.getLast hne) (List.getLast?_eq_some_getLast hne)
  have hts : ts = ts.dropLast ++ [ts.getLast hne] := (List.dropLast_concat_getLast hne).symm
  refine ⟨ts.dropLast, ts.getLast hne, hts, hlast, ?_⟩
  have heq := h.level
  rw [hts, Recovery.openBraces_append] at heq
  have hzero := openBraces_semicolon hlast
  omega

end Closes

theorem braceChange_of_nestKind {a b : Nat} {t : Token} (h : nestKind t.kind a = some b) :
    (b : Int) = a + Recovery.braceChange t := by
  unfold Recovery.braceChange
  split
  · next hk =>
    rw [hk] at h
    cases h
    exact Int.natCast_succ a
  · next hk =>
    rw [hk] at h
    cases a with
    | zero => cases h
    | succ a =>
      cases h
      omega
  · next hl hr =>
    unfold nestKind at h
    split at h
    · next hk => exact absurd hk hl
    · next hk => exact absurd hk hr
    · cases h
    · cases h
    · cases h
    · cases h
      omega

/-- A count of braces that is never stopped is the net count. -/
theorem openBraces_of_nest {a b : Nat} {ts : List Token} (h : nest a ts = some b) :
    (b : Int) = a + Recovery.openBraces ts := by
  induction ts generalizing a with
  | nil =>
    cases h
    simp [Recovery.openBraces]
  | cons t ts ih =>
    rw [nest] at h
    obtain ⟨m, hm, hb⟩ := Option.bind_eq_some_iff.mp h
    rw [ih hb, braceChange_of_nestKind hm, Recovery.openBraces]
    omega

theorem openBraces_of_nest_zero {ts : List Token} (h : nest 0 ts = some 0) :
    Recovery.openBraces ts = 0 := by
  have hzero := openBraces_of_nest h
  omega

/-- Tokens that close what they open are never taken to their end without their semicolon. -/
theorem Closes.nest_eq_none {ts : List Token} (h : Closes 0 ts) (hne : ts ≠ []) :
    nest 0 ts = none := by
  obtain ⟨us, s, rfl, hs, hus⟩ := h.exists_concat hne
  cases hn : nest 0 us with
  | none => rw [nest_append, hn, Option.bind_none]
  | some n =>
    have hzero : n = 0 := by
      have := openBraces_of_nest hn
      omega
    rw [nest_append_of_eq hn, hzero, nest, hs]
    rfl

/-! ## One statement of such a stretch -/

/-- What is taken of such a stretch without its semicolon leaves some of it. -/
theorem Closes.ne_nil_of_nest {taken rest : List Token} {n : Nat} (h : Closes 0 (taken ++ rest))
    (hne : taken ++ rest ≠ []) (hn : nest 0 taken = some n) : rest ≠ [] := by
  rintro rfl
  rw [List.append_nil] at h hne
  rw [h.nest_eq_none hne] at hn
  cases hn

/-- The head of an input with tokens does not depend on what follows them. -/
theorem Input.head_append {ts : List Token} (h : ts ≠ []) (us : List Token) (y z : Token) :
    (⟨ts ++ us, z⟩ : Input).head = (⟨ts, y⟩ : Input).head := by
  obtain ⟨t, ts, rfl⟩ := List.exists_cons_of_ne_nil h
  rfl

/--
A statement that begins in a stretch of tokens that closes what it opens ends there too, and what is
left of the stretch does not matter to it beyond the next token.
-/
theorem statement_of_closes {ts : List Token} (h : Closes 0 ts) (hne : ts ≠ []) :
    (∃ s vs, vs.length < ts.length ∧ Closes 0 vs ∧ ∀ (us : List Token) (z : Token), z.kind = .eof →
      statement (expression maxNesting) ⟨ts ++ us, z⟩ = .ok s ⟨vs ++ us, z⟩) ∨
    (∃ d c vs, ts = c ++ vs ∧ vs ≠ [] ∧ ∀ (us : List Token) (z : Token), z.kind = .eof →
      statement (expression maxNesting) ⟨ts ++ us, z⟩ = .error d ⟨vs ++ us, z⟩) := by
  -- It is enough to look at the stretch alone: what is taken there is taken everywhere.
  have hi : (⟨ts, .endOfInput⟩ : Input).Ended := rfl
  have htakes : ∀ (s : Stmt) (vs : List Token),
      statement (expression maxNesting) ⟨ts ++ [], .endOfInput⟩ = .ok s ⟨vs ++ [], .endOfInput⟩ →
      vs.length < ts.length := by
    intro s vs hrun
    rw [List.append_nil, List.append_nil] at hrun
    exact (takes_statement maxNesting hi s _ hrun).2
  cases settles_statement (local_expression maxNesting) hi with
  | past s c semicolon j hij hnest hs run =>
    left
    obtain ⟨vs, e⟩ := j
    obtain rfl : ts = (c ++ [semicolon]) ++ vs := congrArg Input.pending hij
    have hrun : ∀ (us : List Token) (z : Token), z.kind = .eof →
        statement (expression maxNesting) ⟨(c ++ [semicolon]) ++ vs ++ us, z⟩
          = .ok s ⟨vs ++ us, z⟩ := by
      intro us z hz
      rw [List.append_assoc]
      exact run ⟨vs ++ us, z⟩ hz
    refine ⟨s, vs, htakes s vs (hrun [] _ rfl), h.of_append_of_level ?_, hrun⟩
    rw [Recovery.openBraces_append, openBraces_of_nest_zero hnest, openBraces_semicolon hs]
    rfl
  | before hlocal =>
    cases hlocal with
    | ok s c j hij hnest run =>
      left
      obtain ⟨vs, e⟩ := j
      obtain rfl : ts = c ++ vs := congrArg Input.pending hij
      have hvs := h.ne_nil_of_nest hne hnest
      have hrun : ∀ (us : List Token) (z : Token), z.kind = .eof →
          statement (expression maxNesting) ⟨c ++ vs ++ us, z⟩ = .ok s ⟨vs ++ us, z⟩ := by
        intro us z hz
        rw [List.append_assoc]
        exact run ⟨vs ++ us, z⟩ hz (Input.head_append hvs us e z)
      exact ⟨s, vs, htakes s vs (hrun [] _ rfl),
        h.of_append_of_level (openBraces_of_nest_zero hnest), hrun⟩
    | error d c j hij hnest found run =>
      right
      obtain ⟨vs, e⟩ := j
      obtain ⟨m, hm⟩ := hnest
      obtain rfl : ts = c ++ vs := congrArg Input.pending hij
      have hvs := h.ne_nil_of_nest hne hm
      refine ⟨d, c, vs, rfl, hvs, ?_⟩
      intro us z hz
      rw [List.append_assoc]
      exact run ⟨vs ++ us, z⟩ hz (Input.head_append hvs us e z)

/-- Recovery stops at the last semicolon of such a stretch at the latest. -/
theorem Recovery.skip_append {depth : Int} {ts : List Token} (h : Closes depth ts) (hne : ts ≠ [])
    (us : List Token) :
    Closes 0 (skip depth ts) ∧ skip depth (ts ++ us) = skip depth ts ++ us := by
  induction ts generalizing depth with
  | nil => exact absurd rfl hne
  | cons t ts ih =>
    have hdepth := h.depth_nonneg
    have hrest : Closes (depth + braceChange t) ts := by
      have hone := Closes.of_append (q := [t]) h
      rwa [openBraces, openBraces, Int.add_zero] at hone
    rw [List.cons_append, skip, skip]
    by_cases hsemi : depth ≤ 0 ∧ t.kind = .semicolon
    · rw [if_pos hsemi, if_pos hsemi]
      have hzero : depth + braceChange t = 0 := by
        simp [braceChange, hsemi.2]
        omega
      exact ⟨hzero ▸ hrest, rfl⟩
    rw [if_neg hsemi, if_neg hsemi]
    by_cases hstart : depth ≤ 0 ∧ startsStatement t
    · rw [if_pos hstart, if_pos hstart]
      have hzero : depth = 0 := by omega
      exact ⟨hzero ▸ h, rfl⟩
    rw [if_neg hstart, if_neg hstart]
    refine ih hrest ?_
    -- The last token of the stretch would have been a place to stop.
    rintro rfl
    have hlevel := hrest.level
    have hkind := h.semicolon t rfl
    refine hsemi ⟨?_, hkind⟩
    simp only [openBraces, braceChange, hkind] at hlevel
    omega

/-! ## All of them -/

/-- What such a stretch is parsed to does not depend on what follows it. -/
theorem readAll_append {ts : List Token} (h : Closes 0 ts) {us : List Token} {y z : Token}
    (hy : y.kind = .eof) (hz : z.kind = .eof) :
    readAll ⟨ts ++ us, z⟩ = ((readAll ⟨ts, y⟩).1 ++ (readAll ⟨us, z⟩).1,
      (readAll ⟨ts, y⟩).2 ++ (readAll ⟨us, z⟩).2) := by
  induction hn : ts.length using Nat.strongRecOn generalizing ts with
  | ind n ih =>
    by_cases hne : ts = []
    · rw [hne]
      rfl
    have hlong : ts ++ us ≠ [] := List.append_ne_nil_of_left_ne_nil hne us
    have hends : (⟨ts ++ us, z⟩ : Input).Ended := hz
    have hendsy : (⟨ts, y⟩ : Input).Ended := hy
    -- The first statement is read, or fails, inside the stretch, so both lists are cut at one
    -- token.
    rcases statement_of_closes h hne with ⟨s, vs, hlt, hvs, hrun⟩ | ⟨d, c, vs, rfl, hvs, hrun⟩
    · have hshort : statement (expression maxNesting) ⟨ts, y⟩ = .ok s ⟨vs, y⟩ := by
        simpa only [List.append_nil] using hrun [] y hy
      rw [readAll_of_ok hends hlong (hrun us z hz), readAll_of_ok hendsy hne hshort,
        ih vs.length (by omega) hvs rfl]
      rfl
    · have hshort : statement (expression maxNesting) ⟨c ++ vs, y⟩ = .error d ⟨vs, y⟩ := by
        simpa only [List.append_nil] using hrun [] y hy
      -- Recovery does not leave the stretch either, which is as good as closed.
      have hrest := h.of_append
      rw [Int.zero_add] at hrest
      obtain ⟨hcloses, hskip⟩ := Recovery.skip_append hrest hvs us
      have hone : Recovery.resume ⟨c ++ vs ++ us, z⟩ ⟨vs ++ us, z⟩
          = ⟨Recovery.skip (Recovery.openBraces c) vs ++ us, z⟩ := by
        rw [← hskip]
        exact Recovery.resume_eq (List.append_assoc c vs us)
      have htwo : Recovery.resume ⟨c ++ vs, y⟩ ⟨vs, y⟩
          = ⟨Recovery.skip (Recovery.openBraces c) vs, y⟩ :=
        Recovery.resume_eq rfl
      have hlt := length_resume_lt hendsy hne hshort
      rw [htwo] at hlt
      rw [readAll_of_error hends hlong (hrun us z hz),
        readAll_of_error hendsy hne hshort, hone, htwo, ih _ (by rw [← hn]; exact hlt) hcloses rfl]
      rfl

/--
Tokens that close the braces they open, never one more, and end in a semicolon are parsed on their
own: whatever follows them adds its statements and diagnostics behind theirs.
-/
theorem Program.ofTokens_append {front back : List Token} {z : Token} (h : Closes 0 front)
    (hfront : ∀ t ∈ front, t.kind ≠ .eof) (hz : z.kind = .eof) :
    ofTokens ⟨front ++ back⟩ =
      ⟨(ofTokens ⟨front ++ [z]⟩).statements ++ (ofTokens ⟨back⟩).statements,
        (ofTokens ⟨front ++ [z]⟩).diagnostics ++ (ofTokens ⟨back⟩).diagnostics⟩ := by
  have hback : (Input.ofList ⟨back⟩).Ended := Input.ended_ofList _
  rw [ofTokens_eq, ofTokens_eq, ofTokens_eq, Input.ofList_append hfront,
    Input.ofList_concat hfront hz, readAll_append h hz hback]

/-- `let f = fn() { let = 1; };` fails inside the body of the function, and `x` is parsed. -/
theorem Program.ofTokens_broken_body :
    let f := Token.synthetic .ident "f"
    let x := Token.synthetic .ident "x"
    let one := Token.synthetic .int "1"
    let keyword := Token.synthetic .kwLet "let"
    let assign := Token.synthetic .assign "="
    let semicolon := Token.synthetic .semicolon ";"
    let front := [keyword, f, assign, .synthetic .kwFn "fn", .synthetic .lParen "(",
      .synthetic .rParen ")", .synthetic .lBrace "\x7b", keyword, assign, one, semicolon,
      .synthetic .rBrace "\x7d", semicolon]
    Closes 0 front ∧ (∀ t ∈ front, t.kind ≠ .eof) ∧
      ofTokens ⟨front ++ [x, .endOfInput]⟩ =
        ⟨[.missing assign, .expression x (.identifier ⟨x, "x"⟩)],
          [⟨.unexpectedToken .ident, assign⟩]⟩ := by
  intro f x one keyword assign semicolon front
  have hcloses : Closes 0 front := by decide
  have hfront : ∀ t ∈ front, t.kind ≠ .eof := by decide
  refine ⟨hcloses, hfront, ?_⟩
  rw [ofTokens_append hcloses hfront (z := .endOfInput) rfl]
  rfl

end Ember
