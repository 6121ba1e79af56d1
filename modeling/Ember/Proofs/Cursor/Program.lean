import Ember.Proofs.Cursor.Recovery
import Mathlib.Data.List.TakeWhile

/-!
# Parsing by position gives the program

A list of any tokens, with no end of input or with several, is parsed by position to the program
that it gives (`Cursor.program_eq`). So parsing ends on every list (`Cursor.parsing_ends`), and
nothing from the first end of input on is read: with the tokens behind it cut off, or with the end
that is missing put there, the list gives the same program (`TokenList.parses_as_finished`). Only
what is reported at an end of input is reported at another one then.
-/

namespace Ember

/-! ## Another end of the input -/

/-- The token, or `z` if it is an end of input. -/
def Token.endedBy (t z : Token) : Token := if t.kind = .eof then z else t

/-- The diagnostic, at `z` if it was at an end of input. -/
def Diagnostic.endedBy (d : Diagnostic) (z : Token) : Diagnostic := ⟨d.reason, d.found.endedBy z⟩

/-- The statement, a placeholder at `z` if it was one at an end of input. -/
def Stmt.endedBy (s : Stmt) (z : Token) : Stmt :=
  match s with
  | .missing token => .missing (token.endedBy z)
  | s => s

/-- The expression, a placeholder at `z` if it was one at an end of input. -/
def Expr.endedBy (e : Expr) (z : Token) : Expr :=
  match e with
  | .missing token => .missing (token.endedBy z)
  | e => e

/-- The program, with `z` for every end of input that it reports. -/
def Program.endedBy (p : Program) (z : Token) : Program :=
  ⟨p.statements.map (·.endedBy z), p.diagnostics.map (·.endedBy z)⟩

theorem Stmt.endedBy_of_missing? {z : Token} {s : Stmt} (h : s.missing? = none) :
    s.endedBy z = s := by
  cases s with
  | missing _ => cases h
  | _ => rfl

theorem Program.endedBy_read {s : Stmt} (h : s.missing? = none) (p : Program) (z : Token) :
    (⟨s :: p.statements, p.diagnostics⟩ : Program).endedBy z
      = ⟨s :: (p.endedBy z).statements, (p.endedBy z).diagnostics⟩ := by
  unfold endedBy
  rw [List.map_cons, Stmt.endedBy_of_missing? h]

theorem Program.endedBy_reported (reason : Diagnostic.Reason) (t : Token) (p : Program)
    (z : Token) :
    (⟨.missing t :: p.statements, ⟨reason, t⟩ :: p.diagnostics⟩ : Program).endedBy z
      = ⟨.missing (t.endedBy z) :: (p.endedBy z).statements,
        ⟨reason, t.endedBy z⟩ :: (p.endedBy z).diagnostics⟩ := rfl

namespace Cursor

open Rule Grammar

variable {o c d : Cursor} {i j : Input}

/-- A cursor on an input is on its first token, but for the end of the input. -/
theorem On.head_eq (h : On o c i) : i.head = c.current.endedBy i.ending := by
  unfold Token.endedBy
  split
  · next heof =>
    have hnil := h.pending
    rw [ahead_of_eof heof] at hnil
    unfold Input.head
    rw [← hnil]
    rfl
  · next hne => exact (h.current_eq (by rwa [← h.kind_current])).symm

/-- Where the cursor is on an end of input, it is the one that lay ahead from the start. -/
theorem On.current_endedBy (h : On o c i) : c.current.endedBy o.ahead.ending = c.current := by
  unfold Token.endedBy
  split
  · next heof => rw [← h.follows.ending, ahead_of_eof heof]
  · rfl

/-! ## The rounds up to the end -/

theorem rounds_succ (n : Nat) (c : Cursor) : rounds (n + 1) c =
    if c.current.kind = .eof then some (([], []), c)
    else (round n c).bind fun p => (rounds n p.2).bind fun q =>
      match p.1 with
      | .ok s => some ((s :: q.1.1, q.1.2), q.2)
      | .error d => some ((.missing d.found :: q.1.1, d :: q.1.2), q.2) := by
  rw [rounds]
  show (if c.current.kind = .eof then _ else _ : StateT Cursor Option _) c = _
  split
  · rfl
  · show (round n c).bind _ = (round n c).bind _
    congr 1
    funext p
    rcases p with ⟨_ | _, _⟩ <;> rfl

theorem rounds_of_eof (h : c.current.kind = .eof) : Comes (fun n => rounds n c) (([], []), c) :=
  .call (fun n => (rounds_succ n c).trans (if_pos h)) (.const _)

theorem rounds_of_ok {s : Stmt} {ss : List Stmt} {ds : List Diagnostic} {e : Cursor}
    (hne : c.current.kind ≠ .eof) (h : Comes (fun n => round n c) (.ok s, d))
    (hrest : Comes (fun n => rounds n d) ((ss, ds), e)) :
    Comes (fun n => rounds n c) ((s :: ss, ds), e) :=
  .call (fun n => (rounds_succ n c).trans (if_neg hne)) (h.andThen (hrest.andThen (.const _)))

theorem rounds_of_error {reported : Diagnostic} {ss : List Stmt} {ds : List Diagnostic}
    {e : Cursor} (hne : c.current.kind ≠ .eof)
    (h : Comes (fun n => round n c) (.error reported, d))
    (hrest : Comes (fun n => rounds n d) ((ss, ds), e)) :
    Comes (fun n => rounds n c) ((.missing reported.found :: ss, reported :: ds), e) :=
  .call (fun n => (rounds_succ n c).trans (if_neg hne)) (h.andThen (hrest.andThen (.const _)))

/--
The rounds from a cursor end with a program that is the answer of the rule, but for the end of input
that is reported: in the program this is the one that lies ahead of the cursor.
-/
structure Gives (o c : Cursor) (i : Input) (r : List Stmt × List Diagnostic) (p : Program) :
    Prop where
  rounds : ∃ d, Comes (fun n => rounds n c) ((p.statements, p.diagnostics), d)
  answer : ⟨r.1, r.2⟩ = p.endedBy i.ending
  ending : p.endedBy o.ahead.ending = p

theorem exists_gives (hn : o.nesting = 0) (h : On o c i) : ∃ p, Gives o c i (readAll i) p := by
  -- The induction is on the statements that the rules read; the cursor goes along with them.
  refine readAll_induction (P := fun i r => ∀ c, On o c i → ∃ p, Gives o c i r p)
    ?nil ?ok ?error h.ended c h
  case nil =>
    intro i hi hnil c h
    have heof : c.current.kind = .eof := by
      rw [h.kind_current, Input.head, hnil]
      exact hi
    exact ⟨⟨[], []⟩, ⟨c, rounds_of_eof heof⟩, rfl, rfl⟩
  case ok =>
    intro i s j r hi hs ih c h
    obtain ⟨taken, _, hij, htaken, -, hphrase⟩ := of_statement_ok hi hs
    have hmissing := missing?_eq_none_of_phrase hphrase
    have hne : i.pending ≠ [] := by simp [hij, htaken]
    have hz : i.ending = j.ending := by rw [hij]; rfl
    cases round_of_on hn h with
    | reported reason d e k hround hrule hd he =>
      rw [hs] at hrule
      cases hrule
    | read s' d k hround hrule hd =>
      rw [hs] at hrule
      cases hrule
      obtain ⟨p, ⟨e, hrounds⟩, hanswer, hending⟩ := ih d hd
      refine ⟨⟨s :: p.statements, p.diagnostics⟩,
        ⟨e, rounds_of_ok (h.current_ne_eof hne) hround hrounds⟩, ?_, ?_⟩
      · rw [Program.endedBy_read hmissing, hz, ← hanswer]
      · rw [Program.endedBy_read hmissing, hending]
  case error =>
    intro i reported j r hi hne hs ih c h
    obtain ⟨taken, -, hij, -⟩ := of_statement_error hi hs
    cases round_of_on hn h with
    | read s' d k hround hrule hd =>
      rw [hs] at hrule
      cases hrule
    | reported reason d e k hround hrule hd he =>
      rw [hs] at hrule
      cases hrule
      obtain ⟨p, ⟨f, hrounds⟩, hanswer, hending⟩ := ih e he
      refine ⟨⟨.missing d.current :: p.statements, ⟨reason, d.current⟩ :: p.diagnostics⟩,
        ⟨f, rounds_of_error (h.current_ne_eof hne) hround hrounds⟩, ?_, ?_⟩
      · have hz : i.ending = j.ending := by rw [hij]; rfl
        have hanswer : (⟨r.1, r.2⟩ : Program) = p.endedBy j.ending := hanswer
        rw [Program.endedBy_reported, hz, ← hanswer, ← hd.head_eq]
      · rw [Program.endedBy_reported, hending, hd.current_endedBy]

/-! ## Programs -/

theorem ahead_start (l : TokenList) : (start l).ahead = Input.ofList l := rfl

/-- An input with the pending tokens of a list is one that a cursor starts on. -/
theorem on_start {l : TokenList} (hi : i.Ended) (h : i.pending = (Input.ofList l).pending) :
    On (start l) (start l) i :=
  ⟨.refl _, by rw [ahead_start, h], hi⟩

theorem program_of_rounds {l : TokenList} {p : Program}
    (h : Comes (fun n => rounds n (start l)) ((p.statements, p.diagnostics), d)) :
    Comes (program l) p :=
  h.map rfl

/-- Parsing by position gives the program of the list, and only its own end is reported in it. -/
theorem program_eq (l : TokenList) : Comes (program l) (Program.ofTokens l) ∧
    (Program.ofTokens l).endedBy (Input.ofList l).ending = Program.ofTokens l := by
  obtain ⟨p, ⟨d, hrounds⟩, hanswer, hending⟩ :=
    exists_gives (o := start l) rfl (on_start (Input.ended_ofList l) rfl)
  have hp : Program.ofTokens l = p := by
    rw [ahead_start] at hending
    rw [Program.ofTokens_eq, hanswer, hending]
  rw [hp]
  exact ⟨program_of_rounds hrounds, hending⟩

/-- What is behind the pending tokens only shows where the end of the input is reported. -/
theorem readAll_eq_endedBy {l : TokenList} (hi : i.Ended)
    (h : i.pending = (Input.ofList l).pending) :
    (⟨(readAll i).1, (readAll i).2⟩ : Program) = (Program.ofTokens l).endedBy i.ending := by
  obtain ⟨p, ⟨d, hrounds⟩, hanswer, -⟩ := exists_gives (o := start l) rfl (on_start hi h)
  rw [hanswer, (program_of_rounds hrounds).unique (program_eq l).1]

end Cursor

/-! ## Single expressions -/

namespace Phrase

mutual

/-- No phrase is a placeholder. -/
theorem Nested.isMissing_eq_false {s : Stratum} {ts us : List Token} {e : Expr} {n : Nat} :
    Nested s ts e n us → e.isMissing = false
  | .mk h => h.isMissing_eq_false

theorem Operation.isMissing_eq_false {s : Stratum} {ts us : List Token} {e : Expr} {k n : Nat} :
    Operation s ts e k n us → e.isMissing = false
  | .atom h => h.isMissing_eq_false
  | .tighter _ h => h.isMissing_eq_false
  | .binary _ _ _ _ | .unary _ _ | .call _ _ _ | .index _ _ _ _ => rfl

theorem Atom.isMissing_eq_false {ts us : List Token} {e : Expr} {n : Nat} :
    Atom ts e n us → e.isMissing = false
  | .identifier _ | .integer _ _ | .string _ | .yes _ | .no _ => rfl
  | .grouped _ h _ => h.isMissing_eq_false
  | .conditional _ _ _ _ _ | .alternative _ _ _ _ _ _ _ | .function _ _ _ _ => rfl
  | .array _ _ | .hash _ _ => rfl

end

end Phrase

theorem Expr.endedBy_of_isMissing {z : Token} {e : Expr} (h : e.isMissing = false) :
    e.endedBy z = e := by
  cases e with
  | missing _ => cases h
  | _ => rfl

namespace Cursor

open Rule Grammar

variable {o c d : Cursor} {i j : Input}

/-- Reads an input as one expression. -/
def readWhole (i : Input) : Expr × List Diagnostic :=
  match wholeExpression i with
  | .ok e _ => (e, [])
  | .error d _ => (.missing d.found, [d])

theorem readWhole_ofList (l : TokenList) : readWhole (Input.ofList l) = Expr.ofTokens l := rfl

/-- A failure leaves the end of the input as it is. -/
theorem ending_of_wholeExpression {reported : Diagnostic} (hi : i.Ended)
    (h : wholeExpression i = .error reported j) : j.ending = i.ending := by
  have hlocal : Local 1 1
      (expression maxNesting .lowest >>= fun e => optionalSemicolon >>= fun _ => pure e) i :=
    (local_expression maxNesting .lowest 1 i hi).andThen hi fun e k hk =>
      (local_optionalSemicolon hk).andThen hk fun _ _ _ => .pure e
  have hwhole : wholeExpression
      = (expression maxNesting .lowest >>= fun e => optionalSemicolon >>= fun _ => pure e)
        >>= fun e => expect .eof >>= fun _ => pure e := by
    simp only [wholeExpression, bind_assoc, pure_bind]
  rw [hwhole] at h
  cases hr : (expression maxNesting .lowest >>= fun e =>
      optionalSemicolon >>= fun _ => (pure e : Rule Expr)) i with
  | error e k =>
    rw [bind_of_error hr] at h
    cases h
    obtain ⟨_, _, hij, -⟩ := hlocal.of_error hi hr
    rw [hij]
    rfl
  | ok e k =>
    obtain ⟨_, hik, -⟩ := hlocal.of_ok hi hr
    rw [bind_of_ok hr] at h
    by_cases heof : k.head.kind = .eof
    · rw [bind_of_ok (expect_of_eq heof)] at h
      cases h
    · rw [bind_of_error (expect_of_ne heof)] at h
      cases h
      rw [hik]
      rfl

/-- What is read is no placeholder. -/
theorem isMissing_of_wholeExpression (hi : i.Ended) :
    Yields wholeExpression i fun e _ => e.isMissing = false := by
  unfold wholeExpression
  refine (Sound.lowest (sound_expression maxNesting) hi).bind ?_
  rintro e j ⟨-, _, -, hphrase⟩
  refine Yields.bind (P := fun _ _ => True) (fun _ _ _ => trivial) fun _ _ _ => ?_
  refine Yields.bind (P := fun _ _ => True) (fun _ _ _ => trivial) fun _ _ _ => ?_
  exact .pure hphrase.isMissing_eq_false

/-- As with programs, what is behind the pending tokens only shows where it is reported. -/
theorem exists_single {l : TokenList} (hi : i.Ended) (h : i.pending = (Input.ofList l).pending) :
    ∃ e ds, Comes (singleExpression l) (e, ds) ∧
      readWhole i = (e.endedBy i.ending, ds.map (·.endedBy i.ending)) ∧
      e.endedBy (Input.ofList l).ending = e ∧
      ds.map (·.endedBy (Input.ofList l).ending) = ds := by
  have hmatches := matches_wholeExpression (o := start l) rfl (on_start hi h)
  unfold readWhole
  generalize hr : wholeExpression i = r at hmatches
  cases hmatches with
  | ok e hw _ =>
    have he := isMissing_of_wholeExpression hi e _ hr
    refine ⟨e, [], hw.map rfl, ?_, Expr.endedBy_of_isMissing he, rfl⟩
    rw [Expr.endedBy_of_isMissing he]
    rfl
  | error reason hw hc =>
    have hhead := hc.head_eq
    rw [ending_of_wholeExpression hi hr] at hhead
    refine ⟨_, _, hw.map rfl, ?_, ?_, ?_⟩
    · simp [Expr.endedBy, Diagnostic.endedBy, hhead]
    · exact congrArg Expr.missing hc.current_endedBy
    · exact congrArg (fun t => [(⟨reason, t⟩ : Diagnostic)]) hc.current_endedBy

/-- Reading one expression by position gives it, and only the list's own end is reported. -/
theorem singleExpression_eq (l : TokenList) :
    let r := Expr.ofTokens l
    let z := (Input.ofList l).ending
    Comes (singleExpression l) r ∧ (r.1.endedBy z, r.2.map (·.endedBy z)) = r := by
  obtain ⟨e, ds, hsingle, hwhole, he, hds⟩ := exists_single (Input.ended_ofList l) rfl
  rw [he, hds, readWhole_ofList] at hwhole
  intro r z
  rw [show r = (e, ds) from hwhole]
  exact ⟨hsingle, Prod.ext he hds⟩

theorem readWhole_eq_endedBy {l : TokenList} (hi : i.Ended)
    (h : i.pending = (Input.ofList l).pending) :
    readWhole i
      = ((Expr.ofTokens l).1.endedBy i.ending, (Expr.ofTokens l).2.map (·.endedBy i.ending)) := by
  obtain ⟨e, ds, hsingle, hwhole, -⟩ := exists_single hi h
  rw [hwhole, ← hsingle.unique (singleExpression_eq l).1]

end Cursor

/-! ## Parsing ends -/

open Rule Grammar

/-- Every statement takes a token. -/
theorem length_readAll_le {i : Input} (hi : i.Ended) :
    (readAll i).1.length ≤ i.pending.length := by
  refine readAll_induction (P := fun i r => r.1.length ≤ i.pending.length) ?_ ?_ ?_ hi
  · intro i _ _
    exact Nat.zero_le _
  · intro i s j r hi hs hr
    have hlt := (takes_statement maxNesting hi s j hs).2
    exact Nat.succ_le_of_lt (hr.trans_lt hlt)
  · intro i d j r hi hne hs hr
    exact Nat.succ_le_of_lt (hr.trans_lt (length_resume_lt hi hne hs))

/--
Parsing by position ends on every list, with the program that the list gives. There are not more
statements in it than tokens in front of the first end of input. Each round ends, and it moves a
cursor on that is not at the end. Each run of a loop inside a statement ends, and it moves the
cursor on or fails.
-/
theorem Cursor.parsing_ends :
    (∀ l : TokenList, ∃ p, Comes (program l) p ∧ p = Program.ofTokens l ∧
      p.statements.length ≤ (l.tokens.takeWhile (·.kind ≠ .eof)).length) ∧
    (∀ l : TokenList, ∃ r, Comes (singleExpression l) r ∧ r = Expr.ofTokens l) ∧
    (∀ c : Cursor, c.nesting = 0 → c.current.kind ≠ .eof →
      ∃ result d, Comes (fun n => round n c) (result, d) ∧ c.position < d.position ∧
        d.nesting = 0) ∧
    ∀ c : Cursor, Advances Walk.blockStatement c ∧ Advances Walk.nextPair c ∧
      Advances Walk.nextExpression c ∧ Advances (fun _ => Walk.nextParameter) c := by
  refine ⟨fun l => ?_, fun l => ?_, fun c hn hne => position_lt_of_round hn hne, fun c => ?_⟩
  · exact ⟨_, (program_eq l).1, rfl, length_readAll_le (Input.ended_ofList l)⟩
  · exact ⟨_, (singleExpression_eq l).1, rfl⟩
  · exact ⟨advances_blockStatement c, advances_nextPair c, advances_nextExpression c,
      advances_nextParameter c⟩

/-- A brace that nothing closes, and no end of input: the one round there is goes past the brace. -/
theorem Cursor.parsing_ends_brace :
    let c := start ⟨[.synthetic .lBrace "\x7b"]⟩
    c.nesting = 0 ∧ c.current.kind ≠ .eof ∧
      ∃ result d, Comes (fun n => round n c) (result, d) ∧ 0 < d.position ∧ d.nesting = 0 := by
  intro c
  have hkind : c.current.kind ≠ .eof := by decide
  exact ⟨rfl, hkind, parsing_ends.2.2.1 c rfl hkind⟩

/-! ## Nothing is read from the first end of input on -/

namespace TokenList

theorem kind_endAfter (ts : List Token) : (endAfter ts).kind = .eof := by
  unfold endAfter
  split <;> rfl

/-- Where there is an end of input, what is behind the first one is cut off. -/
theorem ofList_ofTokens_of_mem {l : TokenList} (h : ∃ t ∈ l.tokens, t.kind = .eof) :
    Input.ofList (ofTokens l.tokens) = Input.ofList l := by
  obtain ⟨ts⟩ := l
  have hbefore : ∀ t ∈ ts.takeWhile (·.kind ≠ .eof), t.kind ≠ .eof := fun t ht => by
    simpa using List.all_eq_true.mp List.all_takeWhile t ht
  have hsplit := List.takeWhile_append_dropWhile (p := (·.kind ≠ .eof)) (l := ts)
  unfold ofTokens
  dsimp only
  cases hd : ts.dropWhile (·.kind ≠ .eof) with
  | nil =>
    obtain ⟨t, ht, heof⟩ := h
    exact absurd heof (by simpa using List.dropWhile_eq_nil_iff.mp hd t ht)
  | cons z us =>
    have hz : z.kind = .eof := by
      have hhead := List.head?_dropWhile_not (p := (·.kind ≠ .eof)) ts
      rw [hd] at hhead
      simpa using hhead
    rw [hd] at hsplit
    show Input.ofList ⟨ts.takeWhile _ ++ [z]⟩ = Input.ofList ⟨ts⟩
    conv => rhs; rw [← hsplit]
    rw [Input.ofList_append hbefore, Input.ofList_append hbefore, Input.ofList_eof hz,
      Input.ofList_eof hz]

/-- Where there is no end of input, one is put behind all tokens. -/
theorem ofList_ofTokens_of_forall {l : TokenList} (h : ∀ t ∈ l.tokens, t.kind ≠ .eof) :
    Input.ofList (ofTokens l.tokens) = ⟨l.tokens, endAfter l.tokens⟩ := by
  have hdrop : l.tokens.dropWhile (·.kind ≠ .eof) = [] := by
    rw [List.dropWhile_eq_nil_iff]
    intro t ht
    simpa using h t ht
  have hlast : (l.tokens.getLast?.map Token.kind) ≠ some .eof := by
    intro heof
    obtain ⟨t, ht, hk⟩ := Option.map_eq_some_iff.mp heof
    exact h t (List.mem_of_getLast? ht) hk
  unfold ofTokens
  rw [hdrop]
  show Input.ofList (finish l) = _
  rw [finish, if_neg hlast]
  exact Input.ofList_concat h (kind_endAfter l.tokens)

theorem ofList_of_forall {l : TokenList} (h : ∀ t ∈ l.tokens, t.kind ≠ .eof) :
    Input.ofList l = ⟨l.tokens, .endOfInput⟩ := by
  have happend := @Input.ofList_append l.tokens [] h
  have hnil : Input.ofList ⟨[]⟩ = ⟨[], .endOfInput⟩ := rfl
  rwa [List.append_nil, hnil, List.append_nil] at happend

open Cursor in
/--
Nothing is read from the first end of input of a list on. By position the list gives what it gives
as an input, and so does the list when it is finished. Both give the same program and the same
single expression where the list has an end of input. Where it has none, they do but for the end of
input that is reported: this is a token without a place, until the list is finished, and then the
one that was put behind its tokens.
-/
theorem parses_as_finished (l : TokenList) :
    let finished := ofTokens l.tokens
    let p := Program.ofTokens l
    let r := Expr.ofTokens l
    (Comes (program l) p ∧ Comes (singleExpression l) r) ∧
    (Comes (program finished) (Program.ofTokens finished) ∧
      Comes (singleExpression finished) (Expr.ofTokens finished)) ∧
    ((∃ t ∈ l.tokens, t.kind = .eof) →
      Program.ofTokens finished = p ∧ Expr.ofTokens finished = r) ∧
    ((∀ t ∈ l.tokens, t.kind ≠ .eof) →
      let z := endAfter l.tokens
      Program.ofTokens finished = p.endedBy z ∧ p.endedBy .endOfInput = p ∧
      Expr.ofTokens finished = (r.1.endedBy z, r.2.map (·.endedBy z)) ∧
      (r.1.endedBy .endOfInput, r.2.map (·.endedBy .endOfInput)) = r) := by
  intro finished p r
  refine ⟨⟨(program_eq l).1, (singleExpression_eq l).1⟩,
    ⟨(program_eq finished).1, (singleExpression_eq finished).1⟩, fun h => ?_, fun h => ?_⟩
  · have hinput : Input.ofList finished = Input.ofList l := ofList_ofTokens_of_mem h
    rw [Program.ofTokens_eq, hinput, ← readWhole_ofList, hinput]
    exact ⟨rfl, rfl⟩
  -- Finishing puts an end behind the tokens; without one, `Input.ofList` takes one of its own.
  · have hfinished : Input.ofList finished = _ := ofList_ofTokens_of_forall h
    have hl := ofList_of_forall h
    have hended := Input.ended_ofList finished
    rw [hfinished] at hended
    have hp := (program_eq l).2
    have hr := (singleExpression_eq l).2
    rw [hl] at hp hr
    refine ⟨?_, hp, ?_, hr⟩
    · rw [Program.ofTokens_eq, hfinished]
      exact readAll_eq_endedBy hended (by rw [hl])
    · rw [← readWhole_ofList, hfinished]
      exact readWhole_eq_endedBy hended (by rw [hl])

/-- A lone `let`: the name is missed at the end that is put behind the keyword. -/
theorem parses_as_finished_let :
    let keyword : Token := ⟨.kwLet, "let", ⟨0, 3⟩, .origin⟩
    (∀ t ∈ [keyword], t.kind ≠ .eof) ∧
      (Program.ofTokens (ofTokens [keyword])).diagnostics
        = [⟨.unexpectedToken .ident, ⟨.eof, "", ⟨3, 3⟩, .origin⟩⟩] := by
  intro keyword
  have hnone : ∀ t ∈ [keyword], t.kind ≠ .eof := by decide
  refine ⟨hnone, ?_⟩
  rw [((parses_as_finished ⟨[keyword]⟩).2.2.2 hnone).1]
  rfl

end TokenList

end Ember
