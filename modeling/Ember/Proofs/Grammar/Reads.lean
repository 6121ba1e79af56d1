import Ember.Proofs.Grammar.Soundness

/-!
# Reading with levels to spare and without

`Reads L n r i a j` is said of a rule that may open `L` levels and meets a phrase that opens `n`: it
reads the phrase if there are levels enough, and fails otherwise, for that reason only. The lemmas
say so of every rule of the grammar, given that it holds of the expressions inside.
-/

namespace Ember

open Phrase Rule

variable {α β : Type}

/-- Reading with `L` levels left a phrase that opens `n`. -/
def Reads (L n : Nat) (r : Rule α) (i : Input) (a : α) (j : Input) : Prop :=
  (n ≤ L → r i = .ok a j) ∧
    (L < n → ∃ t k, r i = .error ⟨.nestedTooDeeply maxNesting, t⟩ k)

namespace Reads

variable {L n m : Nat} {r : Rule α} {f : α → Rule β} {i j k : Input} {a : α} {b : β}

/-- A rule that opens no level does not depend on how many are left. -/
theorem of_ok (h : r i = .ok a j) : Reads L 0 r i a j :=
  ⟨fun _ => h, fun hlt => absurd hlt (Nat.not_lt_zero L)⟩

/-- Of two phrases the one that opens more levels decides. -/
theorem bind (hr : Reads L n r i a j) (hf : Reads L m (f a) j b k) :
    Reads L (max n m) (r >>= f) i b k := by
  constructor
  · intro h
    obtain ⟨hn, hm⟩ := Nat.max_le.mp h
    rw [bind_of_ok (hr.1 hn)]
    exact hf.1 hm
  · intro h
    rcases Nat.lt_or_ge L n with hn | hn
    · obtain ⟨t, l, ht⟩ := hr.2 hn
      exact ⟨t, l, bind_of_error ht⟩
    · rw [bind_of_ok (hr.1 hn)]
      exact hf.2 (by omega)

/-- In front of a phrase a step that opens no level. -/
theorem bind_left (hr : r i = .ok a j) (hf : Reads L n (f a) j b k) :
    Reads L n (r >>= f) i b k := by
  have h := (Reads.of_ok (L := L) hr).bind hf
  rwa [Nat.zero_max] at h

/-- Behind a phrase a step that opens no level. -/
theorem bind_right (hr : Reads L n r i a j) (hf : f a j = .ok b k) :
    Reads L n (r >>= f) i b k := by
  have h := hr.bind (Reads.of_ok (L := L) hf)
  rwa [Nat.max_zero] at h

theorem peek {f : Token → Rule β} (h : Reads L n (f i.head) i b k) :
    Reads L n (Rule.peek >>= f) i b k := h

theorem peekKind {f : Kind → Rule β} (h : Reads L n (f i.head.kind) i b k) :
    Reads L n (Rule.peekKind >>= f) i b k := h

theorem advance {f : Token → Rule β} (h : Reads L n (f i.head) i.tail b k) :
    Reads L n (Rule.advance >>= f) i b k := h

/-- A token that is asked for and stands there opens no level. -/
theorem expect {kind : Kind} {t : Token} {us : List Token} {z : Token} {f : Token → Rule β}
    (ht : t.kind = kind) (h : Reads L n (f t) ⟨us, z⟩ b k) :
    Reads L n (Rule.expect kind >>= f) ⟨t :: us, z⟩ b k :=
  bind_left (expect_cons ht) h

end Reads

namespace Grammar

variable {L n m l : Nat} {expr : Precedence → Rule Expr} {t z : Token} {ts us vs ws : List Token}

/-! ## Statements -/

/-- A statement ends behind its semicolon, or where the grammar lets that be left out. -/
theorem terminator_of_terminator (hz : z.kind = .eof) (h : Terminator us vs) :
    terminator ⟨us, z⟩ = .ok () ⟨vs, z⟩ := by
  unfold terminator
  rw [peekKind_bind]
  cases h with
  | semicolon ht =>
    simp only [Input.head_cons, ht]
    rw [discard_eq, bind_of_ok (expect_cons ht)]
    rfl
  | leftOut h =>
    have hk : (⟨us, z⟩ : Input).head.kind = nextKind us := Input.Ended.head_kind hz
    rw [hk]
    rcases h with h | h <;> rw [h] <;> rfl

/-- A `let` opens the levels of its value. -/
theorem reads_letBinding {i a : Token} {value : Expr} (hz : z.kind = .eof) (ht : t.kind = .kwLet)
    (hi : i.kind = .ident) (ha : a.kind = .assign)
    (hvalue : Reads L n (expr .lowest) ⟨ts, z⟩ value ⟨us, z⟩) (hend : Terminator us vs) :
    Reads L n (statement expr) ⟨t :: i :: a :: ts, z⟩ (.letBinding t (.ofToken i) value)
      ⟨vs, z⟩ := by
  unfold statement
  refine .peekKind ?_
  simp only [Input.head_cons, ht]
  refine .advance (.expect hi (.expect ha (hvalue.bind_right ?_)))
  rw [bind_of_ok (terminator_of_terminator hz hend)]
  rfl

/-- A `return` opens the levels of its value. -/
theorem reads_returning {value : Expr} (hz : z.kind = .eof) (ht : t.kind = .kwReturn)
    (hvalue : Reads L n (expr .lowest) ⟨ts, z⟩ value ⟨us, z⟩) (hend : Terminator us vs) :
    Reads L n (statement expr) ⟨t :: ts, z⟩ (.returning t value) ⟨vs, z⟩ := by
  unfold statement
  refine .peekKind ?_
  simp only [Input.head_cons, ht]
  refine .advance (hvalue.bind_right ?_)
  rw [bind_of_ok (terminator_of_terminator hz hend)]
  rfl

/-- Where an expression may start, a statement is one, with a semicolon or without. -/
theorem statement_of_startsExpression {i : Input} (h : startsExpression i.head.kind = true) :
    statement expr i
      = (expr .lowest >>= fun e => optionalSemicolon >>= fun _ => pure (.ofExpr e)) i := by
  unfold statement
  rw [peekKind_bind]
  cases hk : i.head.kind <;> first | rfl | (rw [hk] at h; cases h)

/-- An expression as a statement opens the levels of the expression. -/
theorem reads_ofExpr {e : Expr} (hz : z.kind = .eof)
    (hstart : startsExpression (nextKind ts) = true)
    (he : Reads L n (expr .lowest) ⟨ts, z⟩ e ⟨us, z⟩)
    (hend : optionalSemicolon ⟨us, z⟩ = .ok () ⟨vs, z⟩) :
    Reads L n (statement expr) ⟨ts, z⟩ (.ofExpr e) ⟨vs, z⟩ := by
  have hk : (⟨ts, z⟩ : Input).head.kind = nextKind ts := Input.Ended.head_kind hz
  unfold Reads
  rw [statement_of_startsExpression (by rw [hk]; exact hstart)]
  refine he.bind_right ?_
  rw [bind_of_ok hend]
  rfl

theorem optionalSemicolon_of_semicolon (ht : t.kind = .semicolon) :
    optionalSemicolon ⟨t :: us, z⟩ = .ok () ⟨us, z⟩ := by
  unfold optionalSemicolon
  rw [peekKind_bind, Input.head_cons, if_pos ht]
  rfl

theorem optionalSemicolon_of_ne (hz : z.kind = .eof) (h : nextKind us ≠ .semicolon) :
    optionalSemicolon ⟨us, z⟩ = .ok () ⟨us, z⟩ := by
  have hk : (⟨us, z⟩ : Input).head.kind = nextKind us := Input.Ended.head_kind hz
  unfold optionalSemicolon
  rw [peekKind_bind, if_neg (by rw [hk]; exact h)]
  rfl

/-- A block whose statements the loop reads up to a closing brace. -/
theorem reads_block {c : Token} {ss : List Stmt} (ht : t.kind = .lBrace) (hc : c.kind = .rBrace)
    (hss : Reads L n (whileNext (fun kind => kind ≠ .rBrace ∧ kind ≠ .eof) (statement expr))
      ⟨us, z⟩ ss ⟨c :: vs, z⟩) :
    Reads L n (block expr) ⟨t :: us, z⟩ ⟨t, ss⟩ ⟨vs, z⟩ := by
  unfold block
  refine .expect ht (hss.bind_right ?_)
  rw [bind_of_ok (expect_cons hc)]
  rfl

/-! ## Lists -/

/-- A list without items: its closing token comes at once. -/
theorem reads_separated_nil {item : Rule α} {closing : Kind} (ht : t.kind = closing) :
    Reads L 0 (separated item closing) ⟨t :: us, z⟩ [] ⟨us, z⟩ := by
  unfold separated
  refine .peekKind ?_
  rw [Input.head_cons, if_pos ht]
  exact .advance (.of_ok rfl)

/-- A list whose items after the first the loop reads up to the closing token. -/
theorem reads_separated_cons {item : Rule α} {closing : Kind} {a : α} {as : List α} {c : Token}
    (hz : z.kind = .eof) (hts : nextKind ts ≠ closing) (hc : c.kind = closing)
    (ha : Reads L n item ⟨ts, z⟩ a ⟨us, z⟩)
    (has : Reads L m (whileNext (· = .comma) (afterComma item)) ⟨us, z⟩ as ⟨c :: vs, z⟩) :
    Reads L (max n m) (separated item closing) ⟨ts, z⟩ (a :: as) ⟨vs, z⟩ := by
  have hk : (⟨ts, z⟩ : Input).head.kind = nextKind ts := Input.Ended.head_kind hz
  unfold separated
  refine .peekKind ?_
  rw [if_neg (by rw [hk]; exact hts)]
  refine ha.bind (has.bind_right ?_)
  rw [bind_of_ok (expect_cons hc)]
  rfl

theorem reads_afterComma {item : Rule α} {c : Token} {a : α} (hc : c.kind = .comma)
    (ha : Reads L n item ⟨ts, z⟩ a ⟨us, z⟩) :
    Reads L n (afterComma item) ⟨c :: ts, z⟩ a ⟨us, z⟩ := by
  unfold afterComma
  exact .expect hc ha

/-- The loop ends in front of a token it does not accept. -/
theorem reads_stop {accepts : Kind → Bool} {r : Rule α} (h : accepts t.kind = false) :
    Reads L 0 (whileNext accepts r) ⟨t :: us, z⟩ [] ⟨t :: us, z⟩ :=
  .of_ok (whileNext_of_neg h)

/-- The loop reads one item and the rest of them. -/
theorem reads_whileNext {accepts : Kind → Bool} {r : Rule α} {a : α} {as : List α} {j k : Input}
    (hr : Takes r) (hz : z.kind = .eof) (h : accepts (nextKind ts) = true)
    (ha : Reads L n r ⟨ts, z⟩ a j) (has : Reads L m (whileNext accepts r) j as k) :
    Reads L (max n m) (whileNext accepts r) ⟨ts, z⟩ (a :: as) k := by
  have hi : (⟨ts, z⟩ : Input).Ended := hz
  have hstep : Reads L (max n m)
      (r >>= fun a => whileNext accepts r >>= fun as => pure (a :: as)) ⟨ts, z⟩ (a :: as) k :=
    ha.bind (has.bind_right rfl)
  unfold Reads
  rw [whileNext_of_pos hr hi (by rw [hi.head_kind]; exact h)]
  exact hstep

/-- The last pair of a hash literal: the closing brace stays where it is. -/
theorem reads_pair_last {key value : Expr} {c : Token} (hc : c.kind = .colon)
    (ht : t.kind = .rBrace) (hkey : Reads L n (expr .lowest) ⟨ts, z⟩ key ⟨c :: us, z⟩)
    (hvalue : Reads L m (expr .lowest) ⟨us, z⟩ value ⟨t :: vs, z⟩) :
    Reads L (max n m) (pair expr) ⟨ts, z⟩ (key, value) ⟨t :: vs, z⟩ := by
  unfold pair
  refine hkey.bind (.expect hc (hvalue.bind_right ?_))
  rw [peekKind_bind, if_neg (by rw [Input.head_cons, ht]; simp)]
  rfl

/-- A pair in front of others: the comma behind it belongs to it. -/
theorem reads_pair_comma {key value : Expr} {c : Token} (hc : c.kind = .colon)
    (ht : t.kind = .comma) (hkey : Reads L n (expr .lowest) ⟨ts, z⟩ key ⟨c :: us, z⟩)
    (hvalue : Reads L m (expr .lowest) ⟨us, z⟩ value ⟨t :: vs, z⟩) :
    Reads L (max n m) (pair expr) ⟨ts, z⟩ (key, value) ⟨vs, z⟩ := by
  unfold pair
  refine hkey.bind (.expect hc (hvalue.bind_right ?_))
  rw [peekKind_bind, if_pos (by rw [Input.head_cons, ht]; decide), discard_eq]
  have hcomma : (expect .comma >>= fun _ => pure ()) (⟨t :: vs, z⟩ : Input) = .ok () ⟨vs, z⟩ := by
    rw [bind_of_ok (expect_cons ht)]
    rfl
  rw [bind_of_ok hcomma]
  rfl

/-! ## Parameters -/

theorem reads_parameter {t z : Token} {us : List Token} (ht : t.kind = .ident) :
    Reads L 0 (do return Identifier.ofToken (← expect .ident)) ⟨t :: us, z⟩ (.ofToken t)
      ⟨us, z⟩ :=
  .expect ht (.of_ok rfl)

/-- The loop reads the parameters behind the first one, up to the closing parenthesis. -/
theorem reads_moreParameters {names : List Identifier} (hz : z.kind = .eof)
    (h : MoreParameters ts names us) :
    ∃ c : Token, c.kind = .rParen ∧
      Reads L 0
        (whileNext (· = .comma) (afterComma (do return Identifier.ofToken (← expect .ident))))
        ⟨ts, z⟩ names ⟨c :: us, z⟩ := by
  induction h with
  | close hc => exact ⟨_, hc, reads_stop (by rw [hc]; rfl)⟩
  | comma hc ht _ ih =>
    obtain ⟨c, hclose, hrest⟩ := ih
    refine ⟨c, hclose, ?_⟩
    exact reads_whileNext (takes_afterComma takes_parameter) hz
      (by rw [nextKind_cons, hc]; rfl) (reads_afterComma hc (reads_parameter ht)) hrest

/-- Parameters hold no expressions, so they open no level. -/
theorem reads_parameters {names : List Identifier} (hz : z.kind = .eof) (ht : t.kind = .lParen)
    (h : Parameters us names vs) : Reads L 0 parameters ⟨t :: us, z⟩ names ⟨vs, z⟩ := by
  unfold parameters
  refine .expect ht ?_
  cases h with
  | none hc => exact reads_separated_nil hc
  | some hident hmore =>
    obtain ⟨c, hc, hrest⟩ := reads_moreParameters (L := L) hz hmore
    exact reads_separated_cons hz (by rw [nextKind_cons, hident]; decide) hc
      (reads_parameter hident) hrest

/-! ## Operands -/

/-- An operand of one token. -/
theorem reads_token {e : Expr}
    (h : t.kind = .ident ∧ e = .identifier (.ofToken t) ∨
      t.kind = .string ∧ e = .string t t.literal ∨
      t.kind = .kwTrue ∧ e = .boolean t true ∨ t.kind = .kwFalse ∧ e = .boolean t false) :
    Reads L 0 (operand expr) ⟨t :: us, z⟩ e ⟨us, z⟩ := by
  unfold operand
  refine .peek ?_
  rcases h with ⟨ht, rfl⟩ | ⟨ht, rfl⟩ | ⟨ht, rfl⟩ | ⟨ht, rfl⟩ <;>
  · simp only [Input.head_cons, ht]
    exact .of_ok rfl

/-- A number is read if its digits fit in 64 bits. -/
theorem reads_integer {value : Int64} (ht : t.kind = .int)
    (hvalue : (Text.readInt? t.literal.toList).bind fit? = some value) :
    Reads L 0 (operand expr) ⟨t :: us, z⟩ (.integer t value) ⟨us, z⟩ := by
  unfold operand
  refine .peek ?_
  simp only [Input.head_cons, ht]
  unfold integer
  refine .peek ?_
  simp only [Input.head_cons, hvalue]
  exact .of_ok rfl

theorem reads_grouped {e : Expr} {c : Token} (ht : t.kind = .lParen) (hc : c.kind = .rParen)
    (he : Reads L n (expr .lowest) ⟨us, z⟩ e ⟨c :: vs, z⟩) :
    Reads L n (grouped expr) ⟨t :: us, z⟩ e ⟨vs, z⟩ := by
  unfold grouped
  refine .expect ht (he.bind_right ?_)
  rw [bind_of_ok (expect_cons hc)]
  rfl

theorem reads_operand_grouped {e : Expr} {c : Token} (ht : t.kind = .lParen)
    (hc : c.kind = .rParen) (he : Reads L n (expr .lowest) ⟨us, z⟩ e ⟨c :: vs, z⟩) :
    Reads L n (operand expr) ⟨t :: us, z⟩ e ⟨vs, z⟩ := by
  unfold operand
  refine .peek ?_
  simp only [Input.head_cons, ht]
  exact reads_grouped ht hc he

/-- A conditional whose next token is no `else`. -/
theorem reads_conditional {condition : Expr} {body : Block} (hz : z.kind = .eof)
    (ht : t.kind = .kwIf) (hws : nextKind ws ≠ .kwElse)
    (hcondition : Reads L n (grouped expr) ⟨us, z⟩ condition ⟨vs, z⟩)
    (hbody : Reads L m (block expr) ⟨vs, z⟩ body ⟨ws, z⟩) :
    Reads L (max n m) (operand expr) ⟨t :: us, z⟩ (.conditional t condition body none)
      ⟨ws, z⟩ := by
  have hk : (⟨ws, z⟩ : Input).head.kind = nextKind ws := Input.Ended.head_kind hz
  unfold operand
  refine .peek ?_
  simp only [Input.head_cons, ht]
  unfold conditional
  refine .expect ht (hcondition.bind (hbody.bind_right ?_))
  rw [peekKind_bind, if_neg (by rw [hk]; exact hws)]
  rfl

/-- A conditional with an `else`: of its three parts the one that opens most levels decides. -/
theorem reads_alternative {condition : Expr} {body other : Block} {o : Token}
    {xs : List Token} (ht : t.kind = .kwIf) (ho : o.kind = .kwElse)
    (hcondition : Reads L n (grouped expr) ⟨us, z⟩ condition ⟨vs, z⟩)
    (hbody : Reads L m (block expr) ⟨vs, z⟩ body ⟨o :: ws, z⟩)
    (hother : Reads L l (block expr) ⟨ws, z⟩ other ⟨xs, z⟩) :
    Reads L (max n (max m l)) (operand expr) ⟨t :: us, z⟩
      (.conditional t condition body (some other)) ⟨xs, z⟩ := by
  unfold operand
  refine .peek ?_
  simp only [Input.head_cons, ht]
  unfold conditional
  refine .expect ht (hcondition.bind (hbody.bind (.peekKind ?_)))
  rw [Input.head_cons, if_pos ho]
  exact .advance (hother.bind_right rfl)

/-- A function literal opens the levels of its body. -/
theorem reads_function {names : List Identifier} {body : Block} (ht : t.kind = .kwFn)
    (hnames : Reads L 0 parameters ⟨us, z⟩ names ⟨vs, z⟩)
    (hbody : Reads L n (block expr) ⟨vs, z⟩ body ⟨ws, z⟩) :
    Reads L n (operand expr) ⟨t :: us, z⟩ (.function ⟨t, names, body⟩) ⟨ws, z⟩ := by
  unfold operand
  refine .peek ?_
  simp only [Input.head_cons, ht]
  unfold functionLiteral
  exact .expect ht (.bind_left (hnames.1 (Nat.zero_le L)) (hbody.bind_right rfl))

theorem reads_array {elements : List Expr} (ht : t.kind = .lBracket)
    (helements : Reads L n (expressions expr .rBracket) ⟨us, z⟩ elements ⟨vs, z⟩) :
    Reads L n (operand expr) ⟨t :: us, z⟩ (.array t elements) ⟨vs, z⟩ := by
  unfold operand
  refine .peek ?_
  simp only [Input.head_cons, ht]
  unfold arrayLiteral
  exact .expect ht (helements.bind_right rfl)

/-- A hash literal whose pairs the loop reads up to a closing brace. -/
theorem reads_hash {pairs : List (Expr × Expr)} {c : Token} (ht : t.kind = .lBrace)
    (hc : c.kind = .rBrace)
    (hpairs : Reads L n (whileNext (· ≠ .rBrace) (pair expr)) ⟨us, z⟩ pairs ⟨c :: vs, z⟩) :
    Reads L n (operand expr) ⟨t :: us, z⟩ (.hash t pairs) ⟨vs, z⟩ := by
  unfold operand
  refine .peek ?_
  simp only [Input.head_cons, ht]
  unfold hashLiteral
  refine .expect ht (hpairs.bind_right ?_)
  rw [bind_of_ok (expect_cons hc)]
  rfl

/-- What stands behind a sign is read with the precedence of signs. -/
theorem reads_unary {op : UnaryOp} {right : Expr} (ht : t.kind = op.kind)
    (hright : Reads L n (expr .unary) ⟨us, z⟩ right ⟨vs, z⟩) :
    Reads L n (operand expr) ⟨t :: us, z⟩ (.unary t op right) ⟨vs, z⟩ := by
  have hunary : Reads L n (unary expr) ⟨t :: us, z⟩ (.unary t op right) ⟨vs, z⟩ := by
    unfold unary
    refine .peek ?_
    simp only [Input.head_cons, ht, UnaryOp.ofKind?_kind]
    exact .advance (hright.bind_right rfl)
  unfold operand
  refine .peek ?_
  rw [Input.head_cons, ht]
  cases op <;> exact hunary

/-! ## Operators after an operand -/

/-- A call opens the levels of its arguments; the callee is already there. -/
theorem reads_call {callee : Expr} {arguments : List Expr} (ht : t.kind = .lParen)
    (harguments : Reads L n (expressions expr .rParen) ⟨us, z⟩ arguments ⟨vs, z⟩) :
    Reads L n (operatorAfter expr callee) ⟨t :: us, z⟩ (.call t callee arguments) ⟨vs, z⟩ := by
  unfold operatorAfter
  refine .peek ?_
  simp only [Input.head_cons, ht]
  exact .advance (harguments.bind_right rfl)

theorem reads_index {left index : Expr} {c : Token} (ht : t.kind = .lBracket)
    (hc : c.kind = .rBracket) (hindex : Reads L n (expr .lowest) ⟨us, z⟩ index ⟨c :: vs, z⟩) :
    Reads L n (operatorAfter expr left) ⟨t :: us, z⟩ (.index t left index) ⟨vs, z⟩ := by
  unfold operatorAfter
  refine .peek ?_
  simp only [Input.head_cons, ht]
  refine .advance (hindex.bind_right ?_)
  rw [bind_of_ok (expect_cons hc)]
  rfl

/--
The right operand is read with the precedence of the operator itself, so that one of the same
precedence ends it.
-/
theorem reads_binary {op : BinaryOp} {left right : Expr} (ht : t.kind = op.kind)
    (hright : Reads L n (expr (.ofKind op.kind)) ⟨us, z⟩ right ⟨vs, z⟩) :
    Reads L n (operatorAfter expr left) ⟨t :: us, z⟩ (.binary t left op right) ⟨vs, z⟩ := by
  unfold operatorAfter
  refine .peek ?_
  rw [Input.head_cons, ht]
  cases op <;> exact .advance (hright.bind_right rfl)

end Grammar

end Ember
