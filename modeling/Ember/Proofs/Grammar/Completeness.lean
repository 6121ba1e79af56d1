import Ember.Proofs.Grammar.Reads

/-!
# A phrase is parsed

Where a phrase of the grammar stands at the front of the input, the rule for it reads exactly that
phrase and answers its tree, provided the levels it opens are within the limit; beyond the limit the
rule fails, and for that reason only. Both halves are one statement (`Reads`), so the induction on
the phrase establishes them together.

What stands behind a phrase matters in two ways: an operator there must not bind tighter than the
phrase's stratum allows, and an `else` there would be taken for the alternative of a conditional.
-/

namespace Ember

open Rule Grammar

namespace Phrase

variable {above : Precedence} {z : Token}

/-! ## Operators at the left edge -/

/-- The loosest precedence of an operator that is applied in an operation of a stratum. -/
def Stratum.floor : Stratum → Precedence
  | equality => .equality
  | comparison => .comparison
  | sum => .sum
  | product => .product
  | unary | application | atom => .call

/-- What may stand above a precedence may still stand there when it binds tighter. -/
theorem Stratum.floor_of_tighter? {s s' : Stratum} (h : s.tighter? = some s')
    (ha : above < s.floor) : above < s'.floor := by
  revert ha
  cases s <;> cases h <;> cases above <;> decide

/-- Whether an operation of a stratum may end where `us` stands. -/
def Stratum.EndsAt (s : Stratum) (us : List Token) : Prop :=
  ¬s.ceiling < .ofKind (nextKind us) ∧ nextKind us ≠ .kwElse

/-- Where an operation may end, one that binds tighter may end. -/
theorem Stratum.EndsAt.of_tighter? {s s' : Stratum} {us : List Token} (h : s.tighter? = some s')
    (hus : s.EndsAt us) : s'.EndsAt us := by
  refine ⟨?_, hus.2⟩
  have := hus.1
  revert this
  cases s <;> cases h <;> cases nextKind us <;> decide

/--
An expression that begins with an operation of `k` operators: its rule comes to stand behind the
operation, with the levels of these operators open and the loop over operators still to be run.
-/
def ReadsOperation (above : Precedence) (z : Token) (ts : List Token) (e : Expr) (k n : Nat)
    (us : List Token) : Prop :=
  ∀ L, (n ≤ L → expression (L + 1) above ⟨ts, z⟩ = operators (L - k) above e ⟨us, z⟩) ∧
    (L < n → ∃ t j, expression (L + 1) above ⟨ts, z⟩ = .error ⟨.nestedTooDeeply maxNesting, t⟩ j)

/-- An operand alone is an operation without operators. -/
theorem ReadsOperation.start {ts us : List Token} {e : Expr} {n : Nat}
    (h : ∀ L, Reads L n (operand (expression L)) ⟨ts, z⟩ e ⟨us, z⟩) :
    ReadsOperation above z ts e 0 n us := by
  intro L
  unfold expression
  constructor
  · intro hn
    rw [bind_of_ok ((h L).1 hn)]
    rfl
  · intro hn
    obtain ⟨t, j, ht⟩ := (h L).2 hn
    exact ⟨t, j, bind_of_error ht⟩

/-- One round of the loop, when the next token binds tighter than what it is read above. -/
theorem operators_of_lt {l : Nat} {left : Expr} {i : Input} (h : above < .ofKind i.head.kind) :
    operators (l + 1) above left i
      = (operatorAfter (expression l) left >>= fun whole => operators l above whole) i := by
  rw [operators, peekKind_bind, if_pos h]

/-- The loop ends at a token that binds no tighter. -/
theorem operators_of_not_lt {L : Nat} {e : Expr} {i : Input}
    (h : ¬above < .ofKind i.head.kind) : operators L above e i = .ok e i := by
  cases L <;>
  · rw [operators, peekKind_bind, if_neg h]
    rfl

/-- One operator more, read with one level less. -/
theorem ReadsOperation.grow {t : Token} {ts us vs : List Token} {left whole : Expr} {k n m : Nat}
    (h : ReadsOperation above z ts left k n (t :: us)) (hk : k ≤ n)
    (ha : above < .ofKind t.kind)
    (hstep : ∀ L, Reads L m (operatorAfter (expression L) left) ⟨t :: us, z⟩ whole ⟨vs, z⟩) :
    ReadsOperation above z ts whole (k + 1) (max n (k + 1 + m)) vs := by
  intro L
  rcases Nat.lt_or_ge L n with hn | hn
  · exact ⟨fun hmax => absurd hmax (by omega), fun _ => (h L).2 hn⟩
  rw [(h L).1 hn]
  rcases Nat.eq_or_lt_of_le (Nat.le_trans hk hn) with heq | hlt
  · -- no level is left for the operator
    refine ⟨fun hmax => absurd hmax (by omega), fun _ => ⟨t, ⟨t :: us, z⟩, ?_⟩⟩
    rw [heq, Nat.sub_self]
    unfold operators
    rw [peekKind_bind, Input.head_cons, if_pos ha]
    rfl
  · obtain ⟨l, hl⟩ : ∃ l, L - k = l + 1 := ⟨L - k - 1, by omega⟩
    have hl' : L - (k + 1) = l := by omega
    rw [hl, hl', operators_of_lt (by rw [Input.head_cons]; exact ha)]
    constructor
    · intro hmax
      rw [bind_of_ok ((hstep l).1 (by omega))]
    · intro hmax
      obtain ⟨t', j, ht'⟩ := (hstep l).2 (by omega)
      exact ⟨t', j, bind_of_error ht'⟩

/-- The loop stops behind the operation, so the expression is the operation. -/
theorem ReadsOperation.stop {ts us : List Token} {e : Expr} {k n : Nat} (hz : z.kind = .eof)
    (h : ReadsOperation above z ts e k n us) (hus : ¬above < .ofKind (nextKind us)) (L : Nat) :
    Reads L (n + 1) (expression L above) ⟨ts, z⟩ e ⟨us, z⟩ := by
  have hi : (⟨us, z⟩ : Input).Ended := hz
  cases L with
  | zero => exact ⟨fun hn => absurd hn (by omega), fun _ => ⟨_, _, rfl⟩⟩
  | succ L =>
    constructor
    · intro hn
      rw [(h L).1 (by omega), operators_of_not_lt (by rw [hi.head_kind]; exact hus)]
    · intro hn
      exact (h L).2 (by omega)

/-! ## The induction -/

/-- Whether a statement without a semicolon may end where `us` stands. -/
def EndsStatement (us : List Token) : Prop :=
  nextKind us = .rBrace ∨ nextKind us = .eof ∨ startsStatement (nextKind us) = true

theorem EndsStatement.ne_else {us : List Token} (h : EndsStatement us) :
    nextKind us ≠ .kwElse := by
  intro hk
  rw [EndsStatement, hk] at h
  revert h
  decide

theorem EndsStatement.ne_semicolon {us : List Token} (h : EndsStatement us) :
    nextKind us ≠ .semicolon := by
  intro hk
  rw [EndsStatement, hk] at h
  revert h
  decide

/-- In a body, a statement is followed by a closing brace or by the start of another one. -/
theorem Body.endsStatement {ts us : List Token} {ss : List Stmt} {n : Nat} (h : Body ts ss n us) :
    EndsStatement ts := by
  cases h with
  | close ht => exact Or.inl ht
  | cons hs _ => exact Or.inr (Or.inr hs.starts)

/-- Behind an expression that a terminator follows no operator and no `else` stands. -/
theorem Terminator.ends {us vs : List Token} (h : Terminator us vs) :
    continues (nextKind us) = false ∧ nextKind us ≠ .kwElse := by
  cases h with
  | semicolon ht =>
    rw [nextKind_cons, ht]
    decide
  | leftOut h =>
    rcases h with h | h <;> rw [h] <;> decide

theorem lt_floor_stratumAbove (h : above.rank ≤ Precedence.unary.rank) :
    above < above.stratumAbove.floor := by
  revert h
  cases above <;> decide

/-- Where the loop above a precedence ends, a phrase of the stratum for it may end. -/
theorem endsAt_stratumAbove {us : List Token} (h : ¬above < .ofKind (nextKind us))
    (helse : nextKind us ≠ .kwElse) : above.stratumAbove.EndsAt us := by
  refine ⟨fun hlt => h ?_, helse⟩
  have hle : above.rank ≤ above.stratumAbove.ceiling.rank := by cases above <;> decide
  exact Nat.lt_of_le_of_lt hle hlt

/-- A precedence below the floor of an operator's stratum is below that of the operator. -/
theorem lt_of_lt_floor {op : BinaryOp} (h : above < (Stratum.ofOp op).floor) :
    above < .ofKind op.kind := by
  revert h
  cases op <;> exact id

/-- An operation may end in front of an operator that makes an operation of its stratum. -/
theorem endsAt_cons {t : Token} {us : List Token} {op : BinaryOp} (h : t.kind = op.kind) :
    (Stratum.ofOp op).EndsAt (t :: us) := by
  rw [Stratum.EndsAt, nextKind_cons, h]
  cases op <;> decide

theorem ne_of_starts {ts : List Token} (h : startsExpression (nextKind ts) = true) :
    decide (nextKind ts ≠ .rBrace) = true := by
  cases hk : nextKind ts <;> first | rfl | (rw [hk] at h; cases h)

theorem accepts_of_starts {ts : List Token} (h : startsStatement (nextKind ts) = true) :
    decide (nextKind ts ≠ .rBrace ∧ nextKind ts ≠ .eof) = true := by
  cases hk : nextKind ts <;> first | rfl | (rw [hk] at h; cases h)

/-- Behind an expression inside brackets or a list no operator and no `else` stands. -/
theorem ends_of_closing {closing : Kind} (h : closing = .rParen ∨ closing = .rBracket) :
    ¬Precedence.lowest < .ofKind closing ∧ closing ≠ .kwElse := by
  rcases h with rfl | rfl <;> decide

/-- An item is followed by a comma or by the closing token, and no operator is either. -/
theorem MoreItems.ends {closing : Kind} (hc : closing = .rParen ∨ closing = .rBracket)
    {ts us : List Token} {es : List Expr} {n : Nat} (h : MoreItems closing ts es n us) :
    ¬Precedence.lowest < .ofKind (nextKind ts) ∧ nextKind ts ≠ .kwElse := by
  cases h with
  | close ht =>
    rw [nextKind_cons, ht]
    exact ends_of_closing hc
  | comma ht =>
    rw [nextKind_cons, ht]
    decide

mutual

/-- A phrase is read by the rule for its precedence, whatever number of levels are left. -/
theorem Nested.reads {above : Precedence} {s : Stratum} {ts us : List Token} {e : Expr} {n : Nat} :
    Nested s ts e n us → s = above.stratumAbove → above.rank ≤ Precedence.unary.rank →
    z.kind = .eof → ¬above < .ofKind (nextKind us) ∧ nextKind us ≠ .kwElse → ∀ L,
    Reads L n (expression L above) ⟨ts, z⟩ e ⟨us, z⟩
  | .mk h, hs, ha, hz, hus, L => by
    have hread := h.reads (by rw [hs]; exact lt_floor_stratumAbove ha) hz
      (by rw [hs]; exact endsAt_stratumAbove hus.1 hus.2)
    exact hread.stop hz hus.1 L

/-- Behind an operation the rule is in its loop again, one level down for each operator read. -/
theorem Operation.reads {above : Precedence} {s : Stratum} {ts us : List Token} {e : Expr}
    {k n : Nat} :
    Operation s ts e k n us → above < s.floor → z.kind = .eof → s.EndsAt us →
    ReadsOperation above z ts e k n us
  | .atom h, _, hz, hus => .start fun L => h.reads hz hus.2 L
  | .tighter hs h, ha, hz, hus =>
    h.reads (Stratum.floor_of_tighter? hs ha) hz (hus.of_tighter? hs)
  | .binary hleft ht hs hright, ha, hz, hus => by
    -- The right operand is read above the operator itself, which keeps the chain left associative.
    have hs' := Option.some.inj (hs.symm.trans (tighter?_ofOp _))
    have hread := hleft.reads ha hz (endsAt_cons ht)
    refine hread.grow hleft.le (by rw [ht]; exact lt_of_lt_floor ha) fun L => ?_
    refine reads_binary ht ?_
    rw [ofKind_kind]
    exact hright.reads hs' (rank_ceiling_ofOp _) hz hus L
  | .unary ht h, _, hz, hus =>
    .start fun L => reads_unary ht (h.reads rfl (Nat.le_refl _) hz hus L)
  | .call hcallee ht hargs, ha, hz, _ => by
    have hread := hcallee.reads ha hz (by rw [Stratum.EndsAt, nextKind_cons, ht]; decide)
    refine hread.grow hcallee.le (by rw [ht]; exact ha) fun L => ?_
    exact reads_call ht (hargs.reads (Or.inl rfl) hz L)
  | .index hleft ht hindex hc, ha, hz, _ => by
    have hread := hleft.reads ha hz (by rw [Stratum.EndsAt, nextKind_cons, ht]; decide)
    refine hread.grow hleft.le ?_ fun L => ?_
    · rw [ht]
      exact Nat.lt_succ_of_lt ha
    · exact reads_index ht hc (hindex.reads rfl (by decide) hz
        (by rw [nextKind_cons, hc]; decide) L)

theorem Atom.reads {ts us : List Token} {e : Expr} {n : Nat} :
    Atom ts e n us → z.kind = .eof → nextKind us ≠ .kwElse → ∀ L,
    Reads L n (operand (expression L)) ⟨ts, z⟩ e ⟨us, z⟩
  | .identifier ht, _, _, L => reads_token (Or.inl ⟨ht, rfl⟩)
  | .integer ht hvalue, _, _, L => reads_integer ht hvalue
  | .string ht, _, _, L => reads_token (Or.inr (Or.inl ⟨ht, rfl⟩))
  | .yes ht, _, _, L => reads_token (Or.inr (Or.inr (Or.inl ⟨ht, rfl⟩)))
  | .no ht, _, _, L => reads_token (Or.inr (Or.inr (Or.inr ⟨ht, rfl⟩)))
  | .grouped ht h hc, hz, _, L => reads_operand_grouped ht hc
      (h.reads rfl (by decide) hz (by rw [nextKind_cons, hc]; decide) L)
  | .conditional ht hp hcond hc hbody, hz, hus, L => by
    -- What follows is no `else`, so the rule does not look for an alternative.
    have hread : Reads L _ (expression L .lowest) ⟨_, z⟩ _ ⟨_, z⟩ :=
      hcond.reads rfl (by decide) hz (by rw [nextKind_cons, hc]; decide) L
    exact reads_conditional hz ht hus (reads_grouped hp hc hread) (hbody.reads hz L)
  | .alternative ht hp hcond hc hbody ho hother, hz, _, L => by
    have hread : Reads L _ (expression L .lowest) ⟨_, z⟩ _ ⟨_, z⟩ :=
      hcond.reads rfl (by decide) hz (by rw [nextKind_cons, hc]; decide) L
    exact reads_alternative ht ho (reads_grouped hp hc hread) (hbody.reads hz L)
      (hother.reads hz L)
  | .function ht hp hnames hbody, hz, _, L =>
    reads_function ht (reads_parameters hz hp hnames) (hbody.reads hz L)
  | .array ht h, hz, _, L => reads_array ht (h.reads (Or.inr rfl) hz L)
  | .hash ht h, hz, _, L => by
    obtain ⟨c, hc, hread⟩ := h.reads hz L
    exact reads_hash ht hc hread

theorem Items.reads {closing : Kind} {ts us : List Token} {es : List Expr} {n : Nat} :
    Items closing ts es n us → closing = .rParen ∨ closing = .rBracket → z.kind = .eof → ∀ L,
    Reads L n (expressions (expression L) closing) ⟨ts, z⟩ es ⟨us, z⟩
  | .none ht, _, _, L => reads_separated_nil ht
  | .some he hes, hclosing, hz, L => by
    obtain ⟨c, hc, hread⟩ := hes.reads hclosing hz L
    -- A list that begins with an expression is not taken for an empty one.
    have hne : nextKind _ ≠ closing := fun h => by
      have := he.starts
      rw [h] at this
      rcases hclosing with rfl | rfl <;> cases this
    exact reads_separated_cons hz hne hc
      (he.reads rfl (by decide) hz (hes.ends hclosing) L) hread

/-- The rule stops in front of the closing token, which the grammar counts as part of the phrase. -/
theorem MoreItems.reads {closing : Kind} {ts us : List Token} {es : List Expr} {n : Nat} :
    MoreItems closing ts es n us → closing = .rParen ∨ closing = .rBracket → z.kind = .eof → ∀ L,
    ∃ c : Token, c.kind = closing ∧
      Reads L n (whileNext (· = .comma) (afterComma (expression L .lowest))) ⟨ts, z⟩ es
        ⟨c :: us, z⟩
  | .close ht, hclosing, _, L => by
    refine ⟨_, ht, reads_stop ?_⟩
    rw [ht]
    rcases hclosing with rfl | rfl <;> rfl
  | .comma hcomma he hes, hclosing, hz, L => by
    obtain ⟨c, hc, hread⟩ := hes.reads hclosing hz L
    refine ⟨c, hc, ?_⟩
    exact reads_whileNext (takes_afterComma (takes_expression L)) hz
      (by rw [nextKind_cons, hcomma]; rfl)
      (reads_afterComma hcomma (he.reads rfl (by decide) hz (hes.ends hclosing) L)) hread

theorem Pairs.reads {ts us : List Token} {pairs : List (Expr × Expr)} {n : Nat} :
    Pairs ts pairs n us → z.kind = .eof → ∀ L,
    ∃ c : Token, c.kind = .rBrace ∧
      Reads L n (whileNext (· ≠ .rBrace) (pair (expression L))) ⟨ts, z⟩ pairs ⟨c :: us, z⟩
  | .close ht, _, L => ⟨_, ht, reads_stop (by rw [ht]; rfl)⟩
  | .last hkey hc hvalue ht, hz, L => by
    refine ⟨_, ht, ?_⟩
    have hpair := reads_pair_last hc ht
      (hkey.reads rfl (by decide) hz (by rw [nextKind_cons, hc]; decide) L)
      (hvalue.reads rfl (by decide) hz (by rw [nextKind_cons, ht]; decide) L)
    have hread : Reads L _ (whileNext (· ≠ .rBrace) (pair (expression L))) ⟨_, z⟩ _ ⟨_, z⟩ :=
      reads_whileNext (takes_pair L) hz (ne_of_starts hkey.starts) hpair
        (reads_stop (by rw [ht]; rfl))
    rwa [Nat.max_zero] at hread
  | .comma hkey hc hvalue ht hpairs, hz, L => by
    obtain ⟨c, hc', hread⟩ := hpairs.reads hz L
    refine ⟨c, hc', ?_⟩
    have hpair := reads_pair_comma hc ht
      (hkey.reads rfl (by decide) hz (by rw [nextKind_cons, hc]; decide) L)
      (hvalue.reads rfl (by decide) hz (by rw [nextKind_cons, ht]; decide) L)
    exact reads_whileNext (takes_pair L) hz (ne_of_starts hkey.starts) hpair hread

theorem Braced.reads {ts us : List Token} {b : Block} {n : Nat} :
    Braced ts b n us → z.kind = .eof → ∀ L,
    Reads L n (block (expression L)) ⟨ts, z⟩ b ⟨us, z⟩
  | .mk ht h, hz, L => by
    obtain ⟨c, hc, hread⟩ := h.reads hz L
    exact reads_block ht hc hread

theorem Body.reads {ts us : List Token} {ss : List Stmt} {n : Nat} :
    Body ts ss n us → z.kind = .eof → ∀ L,
    ∃ c : Token, c.kind = .rBrace ∧
      Reads L n (whileNext (fun kind => kind ≠ .rBrace ∧ kind ≠ .eof) (statement (expression L)))
        ⟨ts, z⟩ ss ⟨c :: us, z⟩
  | .close ht, _, L => ⟨_, ht, reads_stop (by rw [ht]; rfl)⟩
  | .cons hs hss, hz, L => by
    obtain ⟨c, hc, hread⟩ := hss.reads hz L
    refine ⟨c, hc, ?_⟩
    exact reads_whileNext (takes_statement L) hz (accepts_of_starts hs.starts)
      (hs.reads hz hss.endsStatement L) hread

theorem Statement.reads {ts us : List Token} {s : Stmt} {n : Nat} :
    Statement ts s n us → z.kind = .eof → EndsStatement us → ∀ L,
    Reads L n (statement (expression L)) ⟨ts, z⟩ s ⟨us, z⟩
  | .letBinding ht hi ha h hend, hz, _, L => by
    have hus := hend.ends
    exact reads_letBinding hz ht hi ha
      (h.reads rfl (by decide) hz ⟨continues_eq_false_iff.mp hus.1, hus.2⟩ L) hend
  | .returning ht h hend, hz, _, L => by
    have hus := hend.ends
    exact reads_returning hz ht
      (h.reads rfl (by decide) hz ⟨continues_eq_false_iff.mp hus.1, hus.2⟩ L) hend
  | .ended h ht, hz, _, L => by
    refine reads_ofExpr hz h.starts
      (h.reads rfl (by decide) hz (by rw [nextKind_cons, ht]; decide) L) ?_
    exact optionalSemicolon_of_semicolon ht
  | .bare h hcont, hz, hus, L =>
    reads_ofExpr hz h.starts
      (h.reads rfl (by decide) hz ⟨continues_eq_false_iff.mp hcont, hus.ne_else⟩ L)
      (optionalSemicolon_of_ne hz hus.ne_semicolon)

end

end Phrase

end Ember
