import Ember.Proofs.Cursor.Agreement
import Ember.Proofs.Recovery.Placeholders

/-!
# Going on by position

A round of the parser's loop reads a statement, or it reports one that failed and recovers. Recovery
by position counts braces from the start of the statement up to the token at the position, this one
included, and goes on where recovery goes on in the input (`resume_of_on`). Each round moves the
cursor on, whether or not it keeps the token that was reported (`position_lt_of_round`), and each
run of a loop inside a statement moves it on or fails.
-/

namespace Ember.Cursor

open Rule Grammar

variable {o c d : Cursor} {i j : Input}

/-! ## Progress -/

/-- With fewer tokens pending, the cursor is further on. -/
theorem position_lt (hc : On o c i) (hd : On o d j) (h : j.pending.length < i.pending.length) :
    c.position < d.position := by
  have hstop := hc.follows.stop.trans hd.follows.stop.symm
  unfold stop at hstop
  rw [hc.pending, hd.pending] at hstop
  omega

theorem position_le (hc : On o c i) (hd : On o d j) (h : j.pending.length ≤ i.pending.length) :
    c.position ≤ d.position := by
  have hstop := hc.follows.stop.trans hd.follows.stop.symm
  unfold stop at hstop
  rw [hc.pending, hd.pending] at hstop
  omega

/-- What is read behind the token at the position moves the cursor on. -/
theorem position_lt_of_before (hc : On o c.advance i) (hd : Before o d j)
    (h : j.pending.length < i.pending.length) : c.position < d.position := by
  have hlt := position_lt hc hd.advance h
  by_cases hne : c.current.kind = .eof
  · -- At the end nothing is pending, so nothing can have been read.
    rw [advance_of_eof hne] at hc
    rw [← hc.pending, ahead_of_eof hne] at h
    exact absurd h (Nat.not_lt_zero _)
  · rw [advance_of_ne hne, advance_of_ne hd.kind_current] at hlt
    exact Nat.lt_of_succ_lt_succ hlt

theorem position_le_advance (c : Cursor) : c.position ≤ c.advance.position := by
  unfold advance
  split
  · exact Nat.le_refl _
  · exact Nat.le_succ _

theorem takeWhile_eq_take_append {α : Type} {p : α → Bool} {k : Nat} {ts : List α}
    (h : k ≤ (ts.takeWhile p).length) :
    ts.takeWhile p = ts.take k ++ (ts.drop k).takeWhile p := by
  have hall : ∀ t ∈ ts.take k, p t = true := by
    intro t ht
    have htake := List.prefix_iff_eq_take.mp (@List.takeWhile_prefix _ ts p)
    have hmem : t ∈ ts.takeWhile p := by
      rw [htake]
      exact (List.take_prefix_take_left h).mem ht
    exact List.all_eq_true.mp List.all_takeWhile t hmem
  conv => lhs; rw [← List.take_append_drop k ts]
  exact List.takeWhile_append_of_pos hall

/-- The tokens between two positions were pending at the first of them. -/
theorem pending_eq_append (hc : On o c i) (hd : On o d j)
    (h : j.pending.length ≤ i.pending.length) :
    i.pending = (o.tokens.take d.position).drop c.position ++ j.pending := by
  have hle := position_le hc hd h
  have hk : d.position - c.position ≤ c.ahead.pending.length := by
    have hstop := hc.follows.stop.trans hd.follows.stop.symm
    unfold stop at hstop
    omega
  have hdrop : d.tokens.drop d.position
      = (c.tokens.drop c.position).drop (d.position - c.position) := by
    rw [List.drop_drop, hd.follows.tokens, hc.follows.tokens, Nat.add_sub_cancel' hle]
  rw [List.drop_take, ← hc.follows.tokens, ← hc.pending, ← hd.pending]
  show (c.tokens.drop c.position).takeWhile _ = _ ++ (d.tokens.drop d.position).takeWhile _
  rw [hdrop]
  exact takeWhile_eq_take_append hk

/-! ## Skipping -/

theorem skip_succ (n : Nat) (depth : Int) (c : Cursor) : skip (n + 1) depth c =
    if c.current.kind = .eof then some ((), c)
    else if depth ≤ 0 ∧ c.current.kind = .semicolon then some ((), c.advance)
    else if depth ≤ 0 ∧ Recovery.startsStatement c.current then some ((), c)
    else skip n (depth + Recovery.braceChange c.current) c.advance := by
  rw [skip]
  show (if c.current.kind = .eof then _ else _ : StateT Cursor Option Unit) c = _
  repeat' split
  all_goals rfl

/-- Skipping by position is skipping what is pending. -/
theorem skip_of_on (depth : Int) (h : On o c i) :
    ∃ d, Comes (fun n => skip n depth c) ((), d) ∧
      On o d ⟨Recovery.skip depth i.pending, i.ending⟩ := by
  obtain ⟨pending, ending⟩ := i
  induction pending generalizing depth c with
  | nil =>
    have heof : c.current.kind = .eof := h.kind_current.trans h.ended
    exact ⟨c, .call (fun n => (skip_succ n depth c).trans (if_pos heof)) (.const _), h⟩
  | cons t ts ih =>
    have hne := h.current_ne_eof (List.cons_ne_nil t ts)
    have hcurrent : c.current = t := h.current_eq (by rwa [← h.kind_current])
    have hskip : ∀ n, skip (n + 1) depth c = _ := fun n =>
      (skip_succ n depth c).trans (if_neg hne)
    rw [hcurrent] at hskip
    show ∃ d, _ ∧ On o d ⟨Recovery.skip depth (t :: ts), ending⟩
    rw [Recovery.skip]
    by_cases hs : depth ≤ 0 ∧ t.kind = .semicolon
    · rw [if_pos hs]
      exact ⟨c.advance, .call (fun n => (hskip n).trans (if_pos hs)) (.const _), h.tail⟩
    by_cases hk : depth ≤ 0 ∧ Recovery.startsStatement t
    · rw [if_neg hs, if_pos hk]
      exact ⟨c, .call (fun n => (hskip n).trans ((if_neg hs).trans (if_pos hk))) (.const _), h⟩
    · rw [if_neg hs, if_neg hk]
      obtain ⟨d, hd, hon⟩ := ih (depth + Recovery.braceChange t) h.tail
      exact ⟨d, .call (fun n => (hskip n).trans ((if_neg hs).trans (if_neg hk))) hd, hon⟩

/-! ## Recovery -/

/-- The token at the position is the last one up to it. -/
theorem drop_take_succ (c : Cursor) {start : Nat} (h : start ≤ c.position) :
    (c.tokens.take (c.position + 1)).drop start
      = (c.tokens.take c.position).drop start ++ c.tokens[c.position]?.toList := by
  rw [List.take_add_one]
  cases ht : c.tokens[c.position]? with
  | none => simp
  | some t =>
    obtain ⟨hlt, -⟩ := List.getElem?_eq_some_iff.mp ht
    refine List.drop_append_of_le_length ?_
    rw [List.length_take]
    omega

/-- The braces from a position on, up to the token at a later one. -/
theorem openBraces_eq (c : Cursor) {start : Nat} (h : start ≤ c.position) :
    c.openBraces start
      = Recovery.openBraces ((c.tokens.take c.position).drop start)
        + Recovery.braceChange c.current := by
  unfold openBraces current
  rw [drop_take_succ c h, Recovery.openBraces_append]
  cases c.tokens[c.position]? with
  | none => rfl
  | some t => simp [Recovery.openBraces]

theorem resume_eq (n start : Nat) (c : Cursor) : resume n start c =
    if c.openBraces start ≤ 0 ∧ c.current.kind = .semicolon then some ((), c.advance)
    else if start < c.position ∧ c.openBraces start ≤ 0 ∧ Recovery.startsStatement c.current then
      skip n (c.openBraces start) c
    else skip n (c.openBraces start) c.advance := by
  show (if _ then _ else _ : StateT Cursor Option Unit) c = _
  repeat' split
  all_goals rfl

/-- A token at which recovery may stop neither opens nor closes a brace. -/
theorem braceChange_eq_zero {t : Token}
    (h : t.kind = .semicolon ∨ Recovery.startsStatement t = true) :
    Recovery.braceChange t = 0 := by
  have hkind : t.kind = .semicolon ∨ t.kind = .kwLet ∨ t.kind = .kwReturn :=
    h.imp_right (by simpa [Recovery.startsStatement] using ·)
  unfold Recovery.braceChange
  rcases hkind with hk | hk | hk <;> rw [hk]

/--
Recovery by position goes on where recovery goes on. It looks at the token at the position once on
its own and then again where it is kept; it is kept only if the statement did not begin there.
-/
theorem resume_of_on {s : Cursor} (hs : On o s i) (h : On o c j)
    (hle : j.pending.length ≤ i.pending.length)
    (hkeep : Recovery.startsStatement j.head = true → j.pending.length < i.pending.length) :
    ∃ d, Comes (fun n => resume n s.position c) ((), d) ∧ On o d (Recovery.resume i j) := by
  have hpending := pending_eq_append hs h hle
  have hdepth := openBraces_eq c (position_le hs h hle)
  have hresume : ∀ n, resume n s.position c = _ := fun n => resume_eq n s.position c
  rw [h.follows.tokens] at hdepth
  rw [hdepth] at hresume
  rw [Recovery.resume_eq hpending]
  generalize Recovery.openBraces ((o.tokens.take c.position).drop s.position) = depth at hresume ⊢
  obtain ⟨pending, ending⟩ := j
  cases pending with
  | nil =>
    have heof : c.current.kind = .eof := h.kind_current.trans h.ended
    simp only [Recovery.startsStatement, heof, reduceCtorEq, and_false, if_false, decide_false,
      Bool.or_false, Bool.false_eq_true] at hresume
    obtain ⟨d, hd, hon⟩ := skip_of_on (depth + Recovery.braceChange c.current) h.tail
    exact ⟨d, .congr hresume hd, hon⟩
  | cons t ts =>
    have hne := h.current_ne_eof (List.cons_ne_nil t ts)
    have hcurrent : c.current = t := h.current_eq (by rwa [← h.kind_current])
    -- A token that recovery may stop at is no brace, so it counts for nothing in the depth.
    have hsemicolon : depth + Recovery.braceChange t ≤ 0 ∧ t.kind = .semicolon ↔
        depth ≤ 0 ∧ t.kind = .semicolon :=
      and_congr_left fun hk => by rw [braceChange_eq_zero (.inl hk), Int.add_zero]
    have hstarts : depth + Recovery.braceChange t ≤ 0 ∧ Recovery.startsStatement t = true ↔
        depth ≤ 0 ∧ Recovery.startsStatement t = true :=
      and_congr_left fun hk => by rw [braceChange_eq_zero (.inr hk), Int.add_zero]
    -- A statement that began here would be kept for ever; `hkeep` says that it began before.
    have hbehind : s.position < c.position ∧ depth ≤ 0 ∧ Recovery.startsStatement t = true ↔
        depth ≤ 0 ∧ Recovery.startsStatement t = true :=
      and_iff_right_of_imp fun hk => position_lt hs h (hkeep hk.2)
    simp only [hcurrent, hsemicolon, hstarts, hbehind] at hresume
    show ∃ d, _ ∧ On o d ⟨Recovery.skip depth (t :: ts), ending⟩
    rw [Recovery.skip]
    by_cases hsc : depth ≤ 0 ∧ t.kind = .semicolon
    · rw [if_pos hsc]
      exact ⟨c.advance, .congr (fun n => (hresume n).trans (if_pos hsc)) (.const _), h.tail⟩
    by_cases hk : depth ≤ 0 ∧ Recovery.startsStatement t = true
    · rw [if_neg hsc, if_pos hk]
      obtain ⟨d, hd, hon⟩ := skip_of_on (depth + Recovery.braceChange t) h
      rw [Recovery.skip, if_neg (mt hsemicolon.mp hsc), if_pos (hstarts.mpr hk)] at hon
      exact ⟨d, .congr (fun n => (hresume n).trans ((if_neg hsc).trans (if_pos hk))) hd, hon⟩
    · rw [if_neg hsc, if_neg hk]
      obtain ⟨d, hd, hon⟩ := skip_of_on (depth + Recovery.braceChange t) h.tail
      exact ⟨d, .congr (fun n => (hresume n).trans ((if_neg hsc).trans (if_neg hk))) hd, hon⟩

/-! ## One round -/

theorem round_eq (n : Nat) (c : Cursor) : round n c = (Walk.statement n c).bind fun p =>
    (match p.1 with
      | .ok _ => some ((), p.2.advance)
      | .error _ => resume n c.position p.2).bind fun q => some (p.1, q.2) := by
  show (Walk.statement n c).bind _ = (Walk.statement n c).bind _
  congr 1
  funext p
  rcases p with ⟨_ | _, _⟩ <;> rfl

theorem round_of_ok {s : Stmt} (h : Comes (fun n => Walk.statement n c) (.ok s, d)) :
    Comes (fun n => round n c) (.ok s, d.advance) :=
  .congr (fun n => round_eq n c) (h.andThen (.const _))

theorem round_of_error {e : Cursor} {reported : Diagnostic}
    (h : Comes (fun n => Walk.statement n c) (.error reported, d))
    (hr : Comes (fun n => resume n c.position d) ((), e)) :
    Comes (fun n => round n c) (.error reported, e) :=
  .congr (fun n => round_eq n c) (h.andThen (hr.andThen (.const _)))

/-- How a round ends, and what the rule for statements does meanwhile. -/
inductive Rounds (o c : Cursor) (i : Input) : Prop
  | read (s : Stmt) (d : Cursor) (j : Input) (hround : Comes (fun n => round n c) (.ok s, d))
      (hrule : statement (expression maxNesting) i = .ok s j) (hd : On o d j)
  | reported (reason : Diagnostic.Reason) (d e : Cursor) (j : Input)
      (hround : Comes (fun n => round n c) (.error ⟨reason, d.current⟩, e))
      (hrule : statement (expression maxNesting) i = .error ⟨reason, j.head⟩ j)
      (hd : On o d j) (he : On o e (Recovery.resume i j))

theorem round_of_on (hn : o.nesting = 0) (h : On o c i) : Rounds o c i := by
  have hstatement := matches_statement_expression h
  rw [hn, Nat.sub_zero] at hstatement
  generalize hr : statement (expression maxNesting) i = r at hstatement
  cases hstatement with
  | ok s hw hd => exact .read s _ _ (round_of_ok hw) hr hd.advance
  | error reason hw hd =>
    obtain ⟨taken, -, hij, -⟩ := of_statement_error h.ended hr
    have hlen := congrArg (·.pending.length) hij
    simp only [Input.prepend_pending, List.length_append] at hlen
    -- A keyword that is kept is not the one that the statement began with.
    have hkeep : Recovery.startsStatement (Input.head _) = true → taken ≠ [] := fun hs htaken =>
      ne_nil_of_startsStatement h.ended (by rw [hij, htaken]; exact hs) hij hr htaken
    obtain ⟨e, hresume, he⟩ := resume_of_on h hd (by omega) fun hs => by
      have hpos := List.length_pos_iff.mpr (hkeep hs)
      omega
    exact .reported reason _ e _ (round_of_error hw hresume) hr hd he

/-- Every round moves the cursor on. -/
theorem position_lt_of_round (hn : c.nesting = 0) (hne : c.current.kind ≠ .eof) :
    ∃ result d, Comes (fun n => round n c) (result, d) ∧ c.position < d.position ∧
      d.nesting = 0 := by
  have h := On.refl c
  have hpending : c.ahead.pending ≠ [] := by
    rw [ahead_of_ne hne]
    exact List.cons_ne_nil _ _
  cases round_of_on hn h with
  | read s d j hround hrule hd =>
    have hlt := (takes_statement maxNesting h.ended s j hrule).2
    exact ⟨_, d, hround, position_lt h hd hlt, hd.follows.nesting.trans hn⟩
  | reported reason d e j hround hrule hd he =>
    have hlt := length_resume_lt h.ended hpending hrule
    exact ⟨_, e, hround, position_lt h he hlt, he.follows.nesting.trans hn⟩

/-! ## The loops inside a statement -/

/-- From the cursor, the walk ends, and if it reads something it has moved the cursor on. -/
def Advances {α : Type} (w : Nat → Walk α) (c : Cursor) : Prop :=
  ∃ result d, Comes (fun n => w n c) (result, d) ∧ ∀ a, result = .ok a → c.position < d.position

theorem advances_of_matches {α : Type} {w : Nat → Walk α} {r : Rule α}
    {S : Cursor → Input → Prop} (hr : Takes r) (hi : i.Ended)
    (h : Matches S (On o) (fun n => w n c) (r i))
    (hS : ∀ d j, S d j → j.pending.length < i.pending.length → c.position < d.position) :
    Advances w c := by
  generalize hri : r i = y at h
  cases h with
  | ok a hw hs =>
    refine ⟨_, _, hw, fun _ _ => ?_⟩
    exact hS _ _ hs (hr hi a _ hri).2
  | error reason hw hf => exact ⟨_, _, hw, nofun⟩

theorem advances_blockStatement (c : Cursor) : Advances Walk.blockStatement c := by
  have h := On.refl c
  exact advances_of_matches (takes_statement _) h.ended (matches_blockStatement (agreesExpr c) h)
    fun _ _ hd hlt => position_lt h hd hlt

theorem advances_nextPair (c : Cursor) : Advances Walk.nextPair c := by
  have h := (On.refl c).tail
  exact advances_of_matches (takes_pair _) h.ended (matches_nextPair (agreesExpr c) h)
    fun _ _ hd hlt => position_lt_of_before h hd hlt

theorem advances_nextExpression (c : Cursor) : Advances Walk.nextExpression c := by
  have h := (On.refl c).tail.tail
  have hmatches : Matches (Before c) (On c) (fun n => Walk.nextExpression n c)
      (expression (maxNesting - c.nesting) .lowest c.ahead.tail.tail) :=
    .call (fun n => congrFun (Walk.nextExpression.eq_2 n) c)
      (.advance (.advance (agreesExpr c .lowest _ _ h)))
  exact advances_of_matches (takes_expression _) h.ended hmatches fun _ _ hd hlt =>
    (position_le_advance c).trans_lt (position_lt_of_before h hd hlt)

theorem advances_nextParameter (c : Cursor) : Advances (fun _ => Walk.nextParameter) c := by
  have h := (On.refl c).tail.tail
  have hmatches : Matches (Before c) (On c) (fun _ => Walk.nextParameter c)
      ((do return .ofToken (← expect .ident) : Rule Identifier) c.ahead.tail.tail) :=
    .advance (.advance ((Matches.expectCurrent (by decide) h).bind fun _ _ _ _ hd => .pure _ hd))
  exact advances_of_matches takes_parameter h.ended hmatches fun _ _ hd hlt =>
    (position_le_advance c).trans_lt (position_lt_of_before h hd hlt)

end Ember.Cursor
