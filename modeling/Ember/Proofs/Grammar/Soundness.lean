import Ember.Proofs.Grammar.Phrase
import Ember.Proofs.Parser.Run

/-!
# What is parsed is a phrase

A rule of the grammar that succeeds has read a phrase of the grammar, and the tree it answers is the
phrase's tree. The rules take the rule for expressions as a parameter, so all but the last section
assume that one to be `Sound`; the last section shows it of `Grammar.expression` by induction on the
levels that are left.

## The loop over operators

What has been read so far is an operation of some stratum, and the next token never binds tighter
than that stratum allows (`Stratum.ceiling`). That is what makes the next operator apply to all of
it, so it is the invariant of `Grammar.operators` (`sound_operators`).
-/

namespace Ember

open Phrase Rule

theorem Input.Ended.head_kind {i : Input} (hi : i.Ended) : i.head.kind = nextKind i.pending := by
  obtain ⟨pending, ending⟩ := i
  cases pending with
  | nil => exact hi
  | cons t ts => rfl

namespace Precedence

/-- The stratum of an expression whose operators bind tighter than a given precedence. -/
def stratumAbove : Precedence → Stratum
  | lowest => .equality
  | equality => .comparison
  | comparison => .sum
  | sum => .product
  | product | unary => .unary
  | call | index => .application

end Precedence

namespace Phrase

namespace Stratum

/-- The tightest precedence that the token behind an operation of a stratum may have. -/
def ceiling : Stratum → Precedence
  | equality => .equality
  | comparison => .comparison
  | sum => .sum
  | product => .product
  | unary => .unary
  | application | atom => .index

/-- The place of a stratum in the order of binding power. -/
def rank : Stratum → Nat
  | equality => 0
  | comparison => 1
  | sum => 2
  | product => 3
  | unary => 4
  | application => 5
  | atom => 6

end Stratum

/-- Every stratum but the last is built on the one that follows it in that order. -/
theorem Stratum.exists_tighter {s : Stratum} (h : s.rank < Stratum.atom.rank) :
    ∃ s', s.tighter? = some s' ∧ s'.rank = s.rank + 1 := by
  cases s <;> first | exact ⟨_, rfl, rfl⟩ | exact absurd h (Nat.lt_irrefl _)

theorem Stratum.rank_le (s : Stratum) : s.rank ≤ Stratum.atom.rank := by
  cases s <;> decide

/-- Strata are told apart by their ranks. -/
theorem Stratum.eq_of_rank_eq {s s' : Stratum} (h : s.rank = s'.rank) : s = s' := by
  cases s <;> cases s' <;> first | rfl | cases h

/-- An operation of a stratum is one of every looser stratum. -/
theorem Operation.loosen {s s' : Stratum} {ts us : List Token} {e : Expr} {k n : Nat}
    (h : Operation s ts e k n us) (hr : s'.rank ≤ s.rank) : Operation s' ts e k n us := by
  rcases Nat.eq_or_lt_of_le hr with heq | hlt
  · rwa [Stratum.eq_of_rank_eq heq]
  · obtain ⟨b, hb, hrank⟩ := Stratum.exists_tighter (Nat.lt_of_lt_of_le hlt s.rank_le)
    exact .tighter hb (h.loosen (by omega))
termination_by s.rank - s'.rank

end Phrase

namespace Grammar

variable {i j : Input}

/-! ## Parts without expressions -/

/-- What ends a statement is a semicolon, or nothing in front of a brace or of the end. -/
theorem sound_terminator (hi : i.Ended) :
    Yields terminator i fun _ j => j.Ended ∧ Terminator i.pending j.pending := by
  unfold terminator
  refine .peekKind ?_
  split
  · next hk => exact .pure ⟨hi, .leftOut (Or.inl (hi.head_kind.symm.trans hk))⟩
  · next hk => exact .pure ⟨hi, .leftOut (Or.inr (hi.head_kind.symm.trans hk))⟩
  · rw [discard_eq]
    refine (Yields.expect hi (by decide)).bind ?_
    rintro t j ⟨hj, ht, hp⟩
    rw [hp]
    exact .pure ⟨hj, .semicolon ht⟩

/-- A semicolon is taken if there is one. -/
theorem sound_optionalSemicolon (hi : i.Ended) :
    Yields optionalSemicolon i fun _ j =>
      j.Ended ∧ ((∃ t : Token, t.kind = .semicolon ∧ i.pending = t :: j.pending) ∨ j = i) := by
  unfold optionalSemicolon
  refine .peekKind ?_
  split
  · next hk =>
    have hp := hi.pending_eq (by rw [hk]; decide)
    exact .pure ⟨hi.tail, Or.inl ⟨i.head, hk, hp⟩⟩
  · exact .pure ⟨hi, Or.inr rfl⟩

/-- What is left of a parameter list after its first name, once the parenthesis closes it. -/
def ClosesParameters (i : Input) (names : List Identifier) (k : Input) : Prop :=
  ∀ {c : Token} {us : List Token}, c.kind = .rParen → k.pending = c :: us →
    MoreParameters i.pending names us

/-- What is read behind `fn` is a list of parameters in parentheses. -/
theorem sound_parameters (hi : i.Ended) :
    Yields parameters i fun names j =>
      j.Ended ∧ ∃ p : Token, p.kind = .lParen ∧
        ∃ us, i.pending = p :: us ∧ Parameters us names j.pending := by
  have one : ∀ i : Input, i.Ended → Yields (do return Identifier.ofToken (← expect .ident)) i
      fun name j => j.Ended ∧ ∃ t : Token, t.kind = .ident ∧ name = .ofToken t ∧
        i.pending = t :: j.pending := by
    intro i hi
    refine (Yields.expect hi (by decide)).bind ?_
    rintro t j ⟨hj, ht, hp⟩
    exact .pure ⟨hj, t, ht, rfl, hp⟩
  unfold parameters separated
  refine (Yields.expect hi (by decide)).bind ?_
  rintro p j ⟨hj, hkind, hp⟩
  refine .peekKind ?_
  split
  · next hc =>
    have hcons := hj.pending_eq (by rw [hc]; decide)
    exact .advance (.pure ⟨hj.tail, p, hkind, j.pending, hp, by rw [hcons]; exact .none hc⟩)
  · refine (one j hj).bind ?_
    rintro name l ⟨hl, t, ht, rfl, hpl⟩
    refine (Yields.whileNext (Q := ClosesParameters) ?_ ?_ hl).bind ?_
    · intro i _ c us hc hpi
      rw [hpi]
      exact .close hc
    · intro i hi _
      refine (Yields.expect hi (by decide)).bind ?_
      rintro c j' ⟨hj', hc, hpj⟩
      refine (one j' hj').mono ?_
      rintro name k ⟨hk, t, ht, rfl, hpk⟩
      refine ⟨hk, fun names k' hq c' us hc' hk' => ?_⟩
      rw [hpj, hpk]
      exact .comma hc ht (hq hc' hk')
    · rintro names k ⟨hk, hq⟩
      refine (Yields.expect hk (by decide)).bind ?_
      rintro c m ⟨hm, hc, hpm⟩
      refine .pure ⟨hm, p, hkind, j.pending, hp, ?_⟩
      rw [hpl]
      exact .some ht (hq hc hpm)

/-! ## Parts with expressions -/

/-- What was answered is a phrase that opens at most `L` levels. -/
def PhraseWithin {α : Type} (L : Nat) (phrase : α → Nat → List Token → Prop) (a : α) (j : Input) :
    Prop :=
  j.Ended ∧ ∃ n, n ≤ L ∧ phrase a n j.pending

/--
What a rule for expressions reads is a phrase of the grammar, and the token behind it does not bind
tighter than the precedence it was read above. Only operators and signs start such a rule, so
nothing is asked above the precedence of a call.
-/
def Sound (L : Nat) (expr : Precedence → Rule Expr) : Prop :=
  ∀ {above : Precedence} {i : Input}, above.rank ≤ Precedence.unary.rank → i.Ended →
    Yields (expr above) i fun e j =>
      PhraseWithin L (Nested above.stratumAbove i.pending) e j ∧
        ¬above < .ofKind (nextKind j.pending)

variable {L : Nat} {expr : Precedence → Rule Expr}

/-- Above the lowest precedence all operators are read, so the phrase is a whole expression. -/
theorem Sound.lowest (he : Sound L expr) (hi : i.Ended) :
    Yields (expr .lowest) i (PhraseWithin L (Nested .equality i.pending)) :=
  (he (by decide) hi).mono fun _ _ h => h.1

/-- An expression statement ends at a token that binds no operator. -/
theorem continues_eq_false_iff {kind : Kind} :
    continues kind = false ↔ ¬Precedence.lowest < .ofKind kind := by
  cases kind <;> decide

/-- A statement that is read is one of the grammar, within the levels that are left. -/
theorem sound_statement (he : Sound L expr) (hi : i.Ended) :
    Yields (statement expr) i (PhraseWithin L (Statement i.pending)) := by
  unfold statement
  refine .peekKind ?_
  split
  · next hk =>
    refine .advance ?_
    have hp := hi.pending_eq (by rw [hk]; decide)
    refine (Yields.expect hi.tail (by decide)).bind ?_
    rintro name j ⟨hj, hname, hpj⟩
    refine (Yields.expect hj (by decide)).bind ?_
    rintro assign l ⟨hl, hassign, hpl⟩
    refine (he.lowest hl).bind ?_
    rintro value k ⟨hk', n, hn, hvalue⟩
    refine (sound_terminator hk').bind ?_
    rintro _ m ⟨hm, hterm⟩
    refine .pure ⟨hm, n, hn, ?_⟩
    rw [hp, hpj, hpl]
    exact .letBinding hk hname hassign hvalue hterm
  · next hk =>
    refine .advance ?_
    have hp := hi.pending_eq (by rw [hk]; decide)
    refine (he.lowest hi.tail).bind ?_
    rintro value k ⟨hk', n, hn, hvalue⟩
    refine (sound_terminator hk').bind ?_
    rintro _ m ⟨hm, hterm⟩
    refine .pure ⟨hm, n, hn, ?_⟩
    rw [hp]
    exact .returning hk hvalue hterm
  · refine (he (by decide) hi).bind ?_
    rintro value k ⟨⟨hk, n, hn, hvalue⟩, hstop⟩
    refine (sound_optionalSemicolon hk).bind ?_
    rintro _ m ⟨hm, ⟨t, ht, hp⟩ | rfl⟩
    · rw [hp] at hvalue
      exact .pure ⟨hm, n, hn, .ended hvalue ht⟩
    · exact .pure ⟨hm, n, hn, .bare hvalue (continues_eq_false_iff.mpr hstop)⟩

/-- Statements that a closing brace makes the body of a block. -/
def ClosesBody (L : Nat) (i : Input) (ss : List Stmt) (k : Input) : Prop :=
  ∀ {c : Token} {us : List Token}, c.kind = .rBrace → k.pending = c :: us →
    ∃ n, n ≤ L ∧ Body i.pending ss n us

theorem sound_block (he : Sound L expr) (hi : i.Ended) :
    Yields (block expr) i (PhraseWithin L (Braced i.pending)) := by
  unfold block
  refine (Yields.expect hi (by decide)).bind ?_
  rintro t j ⟨hj, ht, hp⟩
  refine (Yields.whileNext (Q := ClosesBody L) ?_ ?_ hj).bind ?_
  · intro i _ c us hc hpi
    rw [hpi]
    exact ⟨0, Nat.zero_le _, .close hc⟩
  · intro i hi _
    refine (sound_statement he hi).mono ?_
    rintro s k ⟨hk, n, hn, hs⟩
    refine ⟨hk, fun ss k' hq c us hc hk' => ?_⟩
    obtain ⟨m, hm, hss⟩ := hq hc hk'
    exact ⟨max n m, Nat.max_le.mpr ⟨hn, hm⟩, .cons hs hss⟩
  · rintro ss k ⟨hk, hq⟩
    refine (Yields.expect hk (by decide)).bind ?_
    rintro c m ⟨hm, hc, hpm⟩
    obtain ⟨n, hn, hbody⟩ := hq hc hpm
    refine .pure ⟨hm, n, hn, ?_⟩
    rw [hp]
    exact .mk ht hbody

/-- Expressions that a closing token makes the end of a list. -/
def ClosesItems (L : Nat) (closing : Kind) (i : Input) (es : List Expr) (k : Input) : Prop :=
  ∀ {c : Token} {us : List Token}, c.kind = closing → k.pending = c :: us →
    ∃ n, n ≤ L ∧ MoreItems closing i.pending es n us

/-- A list in parentheses or brackets, up to the token that closes it. -/
theorem sound_expressions (he : Sound L expr) {closing : Kind} (hclosing : closing ≠ .eof)
    (hi : i.Ended) :
    Yields (expressions expr closing) i (PhraseWithin L (Items closing i.pending)) := by
  unfold expressions separated
  refine .peekKind ?_
  split
  · next hc =>
    have hcons := hi.pending_eq (by rw [hc]; exact hclosing)
    exact .advance (.pure ⟨hi.tail, 0, Nat.zero_le _, by rw [hcons]; exact .none hc⟩)
  · refine (he.lowest hi).bind ?_
    rintro e j ⟨hj, n, hn, hfirst⟩
    refine (Yields.whileNext (Q := ClosesItems L closing) ?_ ?_ hj).bind ?_
    · intro i _ c us hc hpi
      rw [hpi]
      exact ⟨0, Nat.zero_le _, .close hc⟩
    · intro i hi _
      refine (Yields.expect hi (by decide)).bind ?_
      rintro c j' ⟨hj', hc, hpj⟩
      refine (he.lowest hj').mono ?_
      rintro e' k ⟨hk, n', hn', he'⟩
      refine ⟨hk, fun es k' hq c' us hc' hk' => ?_⟩
      obtain ⟨m, hm, hes⟩ := hq hc' hk'
      rw [hpj]
      exact ⟨max n' m, Nat.max_le.mpr ⟨hn', hm⟩, .comma hc he' hes⟩
    · rintro es k ⟨hk, hq⟩
      refine (Yields.expect hk hclosing).bind ?_
      rintro c m ⟨hm, hc, hpm⟩
      obtain ⟨n', hn', hes⟩ := hq hc hpm
      exact .pure ⟨hm, max n n', Nat.max_le.mpr ⟨hn, hn'⟩, .some hfirst hes⟩

/-- Pairs that a closing brace makes the end of a hash literal. -/
def ClosesPairs (L : Nat) (i : Input) (pairs : List (Expr × Expr)) (k : Input) : Prop :=
  ∀ {c : Token} {us : List Token}, c.kind = .rBrace → k.pending = c :: us →
    ∃ n, n ≤ L ∧ Pairs i.pending pairs n us

/-- In front of a closing brace there are no pairs left. -/
theorem pairs_of_close {t : Token} {ts us : List Token} {pairs : List (Expr × Expr)} {n : Nat}
    (ht : t.kind = .rBrace) (h : Pairs (t :: ts) pairs n us) : pairs = [] ∧ us = ts := by
  have hnot : startsExpression (nextKind (t :: ts)) ≠ true := by
    rw [nextKind_cons, ht]
    decide
  cases h with
  | close => exact ⟨rfl, rfl⟩
  | last hkey => exact absurd hkey.starts hnot
  | comma hkey => exact absurd hkey.starts hnot

/-- A pair and its comma, in front of pairs that a brace closes, are pairs that it closes. -/
theorem sound_pair (he : Sound L expr) (hi : i.Ended) :
    Yields (pair expr) i fun p j => j.Ended ∧
      ∀ pairs k, ClosesPairs L j pairs k → ClosesPairs L i (p :: pairs) k := by
  unfold pair
  refine (he.lowest hi).bind ?_
  rintro key j ⟨hj, n, hn, hkey⟩
  refine (Yields.expect hj (by decide)).bind ?_
  rintro c l ⟨hl, hc, hpl⟩
  refine (he.lowest hl).bind ?_
  rintro value k ⟨hk, m, hm, hvalue⟩
  rw [hpl] at hkey
  refine .peekKind ?_
  split
  · rw [discard_eq]
    refine Yields.bind (P := fun _ j' => ∃ t : Token, j'.Ended ∧ t.kind = .comma ∧
      k.pending = t :: j'.pending) ?_ ?_
    · refine (Yields.expect hk (by decide)).bind ?_
      rintro t j' ht
      exact .pure ⟨t, ht⟩
    · rintro _ j' ⟨t, hj', ht, hpk⟩
      refine .pure ⟨hj', fun pairs k' hq c' us hc' hk' => ?_⟩
      obtain ⟨n', hn', hpairs⟩ := hq hc' hk'
      rw [hpk] at hvalue
      exact ⟨_, Nat.max_le.mpr ⟨Nat.max_le.mpr ⟨hn, hm⟩, hn'⟩, .comma hkey hc hvalue ht hpairs⟩
  · -- without a comma the next token closes, so this pair is the last one
    next hclose =>
    have hclose := Decidable.of_not_not hclose
    have hpk := hk.pending_eq (by rw [hclose]; decide)
    refine .pure ⟨hk, fun pairs k' hq c' us hc' hk' => ?_⟩
    obtain ⟨n', hn', hpairs⟩ := hq hc' hk'
    rw [hpk] at hpairs hvalue
    obtain ⟨rfl, rfl⟩ := pairs_of_close hclose hpairs
    exact ⟨_, Nat.max_le.mpr ⟨hn, hm⟩, .last hkey hc hvalue hclose⟩

/-! ## Operands -/

theorem sound_integer (hi : i.Ended) (hk : i.head.kind = .int) :
    Yields integer i (PhraseWithin L (Atom i.pending)) := by
  unfold integer
  refine .peek ?_
  split
  · next value hvalue =>
    have hp := hi.pending_eq (by rw [hk]; decide)
    exact .advance (.pure ⟨hi.tail, 0, Nat.zero_le _, by rw [hp]; exact .integer hk hvalue⟩)
  · exact .fail _

/-- What stands in parentheses is an expression, and the parentheses are taken with it. -/
theorem sound_grouped (he : Sound L expr) (hi : i.Ended) :
    Yields (grouped expr) i fun e j => ∃ (p c : Token) (us : List Token) (n : Nat), j.Ended ∧
      p.kind = .lParen ∧ i.pending = p :: us ∧ n ≤ L ∧
      Nested .equality us e n (c :: j.pending) ∧ c.kind = .rParen := by
  unfold grouped
  refine (Yields.expect hi (by decide)).bind ?_
  rintro p j ⟨hj, hp, hpj⟩
  refine (he.lowest hj).bind ?_
  rintro e k ⟨hk, n, hn, hinner⟩
  refine (Yields.expect hk (by decide)).bind ?_
  rintro c l ⟨hl, hc, hpl⟩
  rw [hpl] at hinner
  exact .pure ⟨p, c, j.pending, n, hl, hp, hpj, hn, hinner, hc⟩

theorem sound_conditional (he : Sound L expr) (hi : i.Ended) :
    Yields (conditional expr) i (PhraseWithin L (Atom i.pending)) := by
  unfold conditional
  refine (Yields.expect hi (by decide)).bind ?_
  rintro t j ⟨hj, ht, hpj⟩
  refine (sound_grouped he hj).bind ?_
  rintro condition k ⟨p, c, us, n, hk, hp, hpk, hn, hcondition, hc⟩
  refine (sound_block he hk).bind ?_
  rintro body l ⟨hl, m, hm, hbody⟩
  refine .peekKind ?_
  rw [hpj, hpk]
  split
  · next helse =>
    have hpl := hl.pending_eq (by rw [helse]; decide)
    refine .advance ((sound_block he hl.tail).bind ?_)
    rintro other k' ⟨hk', m', hm', hother⟩
    rw [hpl] at hbody
    exact .pure ⟨hk', _, Nat.max_le.mpr ⟨hn, Nat.max_le.mpr ⟨hm, hm'⟩⟩,
      .alternative ht hp hcondition hc hbody helse hother⟩
  · exact .pure ⟨hl, _, Nat.max_le.mpr ⟨hn, hm⟩, .conditional ht hp hcondition hc hbody⟩

theorem sound_functionLiteral (he : Sound L expr) (hi : i.Ended) :
    Yields (functionLiteral expr) i (PhraseWithin L (Atom i.pending)) := by
  unfold functionLiteral
  refine (Yields.expect hi (by decide)).bind ?_
  rintro t j ⟨hj, ht, hpj⟩
  refine (sound_parameters hj).bind ?_
  rintro names k ⟨hk, p, hp, us, hpk, hnames⟩
  refine (sound_block he hk).bind ?_
  rintro body l ⟨hl, n, hn, hbody⟩
  rw [hpj, hpk]
  exact .pure ⟨hl, n, hn, .function ht hp hnames hbody⟩

theorem sound_arrayLiteral (he : Sound L expr) (hi : i.Ended) :
    Yields (arrayLiteral expr) i (PhraseWithin L (Atom i.pending)) := by
  unfold arrayLiteral
  refine (Yields.expect hi (by decide)).bind ?_
  rintro t j ⟨hj, ht, hpj⟩
  refine (sound_expressions he (by decide) hj).bind ?_
  rintro elements k ⟨hk, n, hn, helements⟩
  rw [hpj]
  exact .pure ⟨hk, n, hn, .array ht helements⟩

theorem sound_hashLiteral (he : Sound L expr) (hi : i.Ended) :
    Yields (hashLiteral expr) i (PhraseWithin L (Atom i.pending)) := by
  unfold hashLiteral
  refine (Yields.expect hi (by decide)).bind ?_
  rintro t j ⟨hj, ht, hpj⟩
  refine (Yields.whileNext (Q := ClosesPairs L) ?_ ?_ hj).bind ?_
  · intro i _ c us hc hpi
    rw [hpi]
    exact ⟨0, Nat.zero_le _, .close hc⟩
  · intro i hi _
    exact sound_pair he hi
  · rintro pairs k ⟨hk, hq⟩
    refine (Yields.expect hk (by decide)).bind ?_
    rintro c l ⟨hl, hc, hpl⟩
    obtain ⟨n, hn, hpairs⟩ := hq hc hpl
    rw [hpj]
    exact .pure ⟨hl, n, hn, .hash ht hpairs⟩

/-- A rule for one kind of atom, as an operand. -/
theorem operation_of_atom {ts : List Token} {e : Expr} (h : PhraseWithin L (Atom ts) e j) :
    j.Ended ∧ ∃ (s : Stratum) (n : Nat), Stratum.unary.rank ≤ s.rank ∧ n ≤ L ∧
      Operation s ts e 0 n j.pending ∧ ¬s.ceiling < .ofKind (nextKind j.pending) := by
  obtain ⟨hj, n, hn, hatom⟩ := h
  refine ⟨hj, .atom, n, by decide, hn, .atom hatom, ?_⟩
  cases nextKind j.pending <;> decide

/-- Nothing binds tighter than a sign, except for calls and indexing behind its operand. -/
theorem sound_unary (he : Sound L expr) (hi : i.Ended) :
    Yields (unary expr) i fun e j => j.Ended ∧ ∃ (s : Stratum) (n : Nat),
      Stratum.unary.rank ≤ s.rank ∧ n ≤ L ∧ Operation s i.pending e 0 n j.pending ∧
      ¬s.ceiling < .ofKind (nextKind j.pending) := by
  unfold unary
  refine .peek ?_
  split
  · next op hop =>
    have hkind := UnaryOp.ofKind?_eq_some_iff.mp hop
    have hp := hi.pending_eq (by rw [hkind]; cases op <;> decide)
    refine .advance ((he (by decide) hi.tail).bind ?_)
    rintro right j ⟨⟨hj, n, hn, hright⟩, hstop⟩
    rw [hp]
    exact .pure ⟨hj, .unary, n, Nat.le_refl _, hn, .unary hkind hright, hstop⟩
  · exact .fail _

/-- An operand belongs to the stratum of signs or to a tighter one. -/
theorem sound_operand (he : Sound L expr) (hi : i.Ended) :
    Yields (operand expr) i fun e j => j.Ended ∧ ∃ (s : Stratum) (n : Nat),
      Stratum.unary.rank ≤ s.rank ∧ n ≤ L ∧ Operation s i.pending e 0 n j.pending ∧
      ¬s.ceiling < .ofKind (nextKind j.pending) := by
  -- an operand of one token
  have one : ∀ e : Expr, i.head.kind ≠ .eof → Atom (i.head :: i.tail.pending) e 0 i.tail.pending →
      Yields (advance >>= fun _ => pure e) i (PhraseWithin L (Atom i.pending)) := by
    intro e hk hatom
    rw [hi.pending_eq hk]
    exact .advance (.pure ⟨hi.tail, 0, Nat.zero_le _, hatom⟩)
  unfold operand
  refine .peek ?_
  split
  · next hk => exact (one _ (by rw [hk]; decide) (.identifier hk)).mono fun _ _ => operation_of_atom
  · next hk => exact (sound_integer hi hk).mono fun _ _ => operation_of_atom
  · next hk => exact (one _ (by rw [hk]; decide) (.string hk)).mono fun _ _ => operation_of_atom
  · next hk => exact (one _ (by rw [hk]; decide) (.yes hk)).mono fun _ _ => operation_of_atom
  · next hk => exact (one _ (by rw [hk]; decide) (.no hk)).mono fun _ _ => operation_of_atom
  · refine (sound_grouped he hi).mono ?_
    rintro e j ⟨p, c, us, n, hj, hp, hpi, hn, hinner, hc⟩
    rw [hpi]
    exact operation_of_atom ⟨hj, n, hn, .grouped hp hinner hc⟩
  · exact (sound_conditional he hi).mono fun _ _ => operation_of_atom
  · exact (sound_functionLiteral he hi).mono fun _ _ => operation_of_atom
  · exact (sound_arrayLiteral he hi).mono fun _ _ => operation_of_atom
  · exact (sound_hashLiteral he hi).mono fun _ _ => operation_of_atom
  · exact sound_unary he hi

/-! ## Operators -/

/-- The precedence of an operator is the ceiling of its stratum. -/
theorem ofKind_kind (op : BinaryOp) : Precedence.ofKind op.kind = (Stratum.ofOp op).ceiling := by
  cases op <;> rfl

/--
The right operand of an operator is read above its precedence, which makes operators of one stratum
group to the left.
-/
theorem tighter?_ofOp (op : BinaryOp) :
    (Stratum.ofOp op).tighter? = some (Stratum.ofOp op).ceiling.stratumAbove := by
  cases op <;> rfl

theorem rank_ceiling_ofOp (op : BinaryOp) :
    (Stratum.ofOp op).ceiling.rank ≤ Precedence.unary.rank := by
  cases op <;> decide

/-- Where the ceiling allows an operator, the operation is one of the operator's stratum. -/
theorem rank_ofOp_le {s : Stratum} {op : BinaryOp} (h : ¬s.ceiling < .ofKind op.kind) :
    (Stratum.ofOp op).rank ≤ s.rank := by
  revert h
  cases op <;> cases s <;> decide

/-- Where the ceiling allows a call or an element access, no other operator stands in the way. -/
theorem rank_application_le {s : Stratum} {kind : Kind} (hk : kind = .lParen ∨ kind = .lBracket)
    (h : ¬s.ceiling < .ofKind kind) : Stratum.application.rank ≤ s.rank := by
  revert h
  rcases hk with rfl | rfl <;> cases s <;> decide

/-- An operator read above a precedence makes an operation of the stratum above it. -/
theorem rank_stratumAbove_le {above : Precedence} {op : BinaryOp} (h : above < .ofKind op.kind) :
    above.stratumAbove.rank ≤ (Stratum.ofOp op).rank := by
  revert h
  cases above <;> cases op <;> decide

theorem rank_stratumAbove_le_application (above : Precedence) :
    above.stratumAbove.rank ≤ Stratum.application.rank := by
  cases above <;> decide

/--
One step of the loop. An operation `left` of `k` operators, behind which an operator binds tighter
than `above`, grows to an operation of one operator more, and again the next token does not bind
tighter than its stratum allows.
-/
theorem sound_operatorAfter (he : Sound L expr) {s : Stratum} {ts : List Token} {left : Expr}
    {k n : Nat} {above : Precedence} (hi : i.Ended) (hleft : Operation s ts left k n i.pending)
    (hs : ¬s.ceiling < .ofKind i.head.kind) (habove : above < .ofKind i.head.kind) :
    Yields (operatorAfter expr left) i fun e j => j.Ended ∧ ∃ (s' : Stratum) (m : Nat),
      above.stratumAbove.rank ≤ s'.rank ∧ m ≤ L ∧
      Operation s' ts e (k + 1) (max n (k + 1 + m)) j.pending ∧
      ¬s'.ceiling < .ofKind (nextKind j.pending) := by
  have hceiling : ∀ kind : Kind, ¬Stratum.application.ceiling < .ofKind kind := by
    intro kind
    cases kind <;> decide
  unfold operatorAfter
  refine .peek ?_
  -- The operator is within the ceiling, so all that has been read so far is its left operand.
  split
  · next hk =>
    have hp := hi.pending_eq (by rw [hk]; decide)
    have hcallee := hleft.loosen (rank_application_le (Or.inl hk) hs)
    rw [hp] at hcallee
    refine .advance ((sound_expressions he (by decide) hi.tail).bind ?_)
    rintro arguments j ⟨hj, m, hm, harguments⟩
    exact .pure ⟨hj, .application, m, rank_stratumAbove_le_application above, hm,
      .call hcallee hk harguments, hceiling _⟩
  · next hk =>
    have hp := hi.pending_eq (by rw [hk]; decide)
    have hindexed := hleft.loosen (rank_application_le (Or.inr hk) hs)
    rw [hp] at hindexed
    refine .advance ((he.lowest hi.tail).bind ?_)
    rintro index j ⟨hj, m, hm, hindex⟩
    refine (Yields.expect hj (by decide)).bind ?_
    rintro c l ⟨hl, hc, hpl⟩
    rw [hpl] at hindex
    exact .pure ⟨hl, .application, m, rank_stratumAbove_le_application above, hm,
      .index hindexed hk hindex hc, hceiling _⟩
  · split
    · next op hop =>
      have hkind := BinaryOp.ofKind?_eq_some_iff.mp hop
      have hp := hi.pending_eq (by rw [hkind]; cases op <;> decide)
      rw [hkind] at hs habove
      have hoperand := hleft.loosen (rank_ofOp_le hs)
      rw [hp] at hoperand
      rw [hkind, ofKind_kind]
      refine .advance ((he (rank_ceiling_ofOp op) hi.tail).bind ?_)
      rintro right j ⟨⟨hj, m, hm, hright⟩, hstop⟩
      exact .pure ⟨hj, .ofOp op, m, rank_stratumAbove_le habove, hm,
        .binary hoperand hkind (tighter?_ofOp op) hright, hstop⟩
    · exact .fail _

/--
The loop over operators, with `l` levels left to open and `k` of them open already. The rule for
expressions below is assumed to be sound at every smaller number of levels.
-/
theorem sound_operators {above : Precedence} {ts : List Token} (ha : above.rank ≤ 5) :
    ∀ (l : Nat), (∀ m < l, Sound m (expression m)) →
      ∀ {s : Stratum} {left : Expr} {k n : Nat} {i : Input}, i.Ended → n ≤ l + k →
      Operation s ts left k n i.pending → above.stratumAbove.rank ≤ s.rank →
      ¬s.ceiling < .ofKind i.head.kind →
      Yields (operators l above left) i fun e j => j.Ended ∧ (∃ k' n', n' ≤ l + k ∧
        Operation above.stratumAbove ts e k' n' j.pending) ∧ ¬above < .ofKind (nextKind j.pending)
  | 0, _, s, left, k, n, i, hi, hn, hleft, hrank, _ => by
    unfold operators
    refine .peekKind ?_
    split
    · exact .fail _
    · next hstop =>
      rw [hi.head_kind] at hstop
      exact .pure ⟨hi, ⟨k, n, hn, hleft.loosen hrank⟩, hstop⟩
  | l + 1, he, s, left, k, n, i, hi, hn, hleft, hrank, hs => by
    unfold operators
    refine .peekKind ?_
    split
    · next habove =>
      refine (sound_operatorAfter (he l (Nat.lt_succ_self l)) hi hleft hs habove).bind ?_
      rintro whole j ⟨hj, s', m, hrank', hm, hwhole, hs'⟩
      rw [← hj.head_kind] at hs'
      refine (sound_operators ha l (fun m hm => he m (Nat.lt_succ_of_lt hm)) hj
        (by omega) hwhole hrank' hs').mono ?_
      rintro e j' ⟨hj', ⟨k', n', hn', he'⟩, hstop⟩
      exact ⟨hj', ⟨k', n', by omega, he'⟩, hstop⟩
    · next hstop =>
      rw [hi.head_kind] at hstop
      exact .pure ⟨hi, ⟨k, n, hn, hleft.loosen hrank⟩, hstop⟩

/-- What is parsed as an expression is one. -/
theorem sound_expression (l : Nat) : Sound l (expression l) := by
  induction l using Nat.strongRecOn with
  | _ l ih =>
    intro above i ha hi
    cases l with
    | zero => exact .fail _
    | succ l =>
      unfold expression
      refine (sound_operand (ih l (Nat.lt_succ_self l)) hi).bind ?_
      rintro left j ⟨hj, s, n, hrank, hn, hleft, hs⟩
      rw [← hj.head_kind] at hs
      have hunary : above.stratumAbove.rank ≤ s.rank := by
        refine Nat.le_trans ?_ hrank
        revert ha
        cases above <;> decide
      refine (sound_operators ha l (fun m hm => ih m (Nat.lt_succ_of_lt hm)) hj hn hleft
        hunary hs).mono ?_
      rintro e j' ⟨hj', ⟨k', n', hn', he⟩, hstop⟩
      exact ⟨⟨hj', n' + 1, Nat.succ_le_succ hn', .mk he⟩, hstop⟩

/-! ## Steps that take a token -/

theorem takes_parameter : Takes (do return Identifier.ofToken (← expect .ident)) := by
  intro i hi
  refine (Yields.expect hi (by decide)).bind ?_
  rintro t j ⟨hj, -, hp⟩
  exact .pure ⟨hj, by rw [hp]; exact Nat.lt_succ_self _⟩

theorem takes_afterComma {α : Type} {item : Rule α} (h : Takes item) : Takes (afterComma item) := by
  intro i hi
  refine (Yields.expect hi (by decide)).bind ?_
  rintro t j ⟨hj, -, hp⟩
  refine (h hj).mono ?_
  rintro a k ⟨hk, hlt⟩
  exact ⟨hk, by rw [hp]; exact Nat.lt_succ_of_lt hlt⟩

theorem takes_expression (L : Nat) : Takes (expression L .lowest) := by
  intro i hi
  refine (Sound.lowest (sound_expression L) hi).mono ?_
  rintro e j ⟨hj, n, -, he⟩
  exact ⟨hj, he.length_lt⟩

/-- A statement takes a token, so the loop over a block comes to an end. -/
theorem takes_statement (L : Nat) : Takes (statement (expression L)) := by
  intro i hi
  refine (sound_statement (sound_expression L) hi).mono ?_
  rintro s j ⟨hj, n, -, hs⟩
  exact ⟨hj, hs.length_lt⟩

theorem takes_pair (L : Nat) : Takes (pair (expression L)) := by
  intro i hi
  unfold pair
  refine (takes_expression L hi).bind ?_
  rintro key j ⟨hj, hlt⟩
  refine (Yields.expect hj (by decide)).bind ?_
  rintro c l ⟨hl, -, hpl⟩
  refine (takes_expression L hl).bind ?_
  rintro value k ⟨hk, hlt'⟩
  rw [hpl] at hlt
  simp only [List.length_cons] at hlt
  refine .peekKind ?_
  split
  · rw [discard_eq]
    refine Yields.bind (P := fun _ j' => j'.Ended ∧ j'.pending.length < k.pending.length) ?_ ?_
    · refine (Yields.expect hk (by decide)).bind ?_
      rintro t j' ⟨hj', -, hp⟩
      exact .pure ⟨hj', by rw [hp]; exact Nat.lt_succ_self _⟩
    · rintro _ j' ⟨hj', hlt''⟩
      exact .pure ⟨hj', by omega⟩
  · exact .pure ⟨hk, by omega⟩

end Grammar

end Ember
