import Ember.Parser.Precedence
import Ember.Text.Decimal
import Ember.Tree.Basic
import Ember.Word

/-!
# The grammar as a relation

What the phrases of the language are, said without a parser: `Statements ts ss n` holds when the
tokens `ts` are a program with the statements `ss`. A relation for a part of a program also names
the tokens that follow the part, so `Nested s ts e n us` says that a phrase stands at the front of
`ts` and `us` is left behind it.

## Strata

Expressions come in strata, each built on the next: equality, comparison, sum and product, all left
associative, then operators before an operand, then calls and element accesses, then atoms.

## Levels

The number in each relation counts the levels of nesting that reading the phrase opens at once. An
expression opens a level for itself. So does every operator, call or element access applied at its
left edge, and these levels stay open until the expression ends: the operand after the `k`-th of
them is read with `k` levels open. `Operation` therefore counts them apart.
-/

namespace Ember

namespace Phrase

/-- The kind of the token that comes next: the end of input where there is none. -/
def nextKind (ts : List Token) : Kind := (ts.head?.map Token.kind).getD .eof

@[simp] theorem nextKind_nil : nextKind [] = .eof := rfl

@[simp] theorem nextKind_cons (t : Token) (ts : List Token) : nextKind (t :: ts) = t.kind := rfl

/-- Whether a token of this kind after an operand is read as an operator on it. -/
def continues : Kind → Bool
  | .plus | .minus | .asterisk | .slash | .lt | .gt | .eq | .notEq | .lParen | .lBracket => true
  | _ => false

/-! ## Strata -/

/-- The strata of expressions, loosest first. -/
inductive Stratum where
  | equality
  | comparison
  | sum
  | product
  | unary
  | application
  | atom
deriving DecidableEq

namespace Stratum

/-- The stratum that a stratum is built on. -/
def tighter? : Stratum → Option Stratum
  | equality => some comparison
  | comparison => some sum
  | sum => some product
  | product => some unary
  | unary => some application
  | application => some atom
  | atom => none

/-- The stratum that an operator between two operands makes. -/
def ofOp : BinaryOp → Stratum
  | .eq | .notEq => equality
  | .lt | .gt => comparison
  | .add | .sub => sum
  | .mul | .div => product

end Stratum

/-! ## Parts without expressions -/

/-- A semicolon, which may be left out before a closing brace and at the end. -/
inductive Terminator : List Token → List Token → Prop
  | semicolon {t : Token} {us : List Token} : t.kind = .semicolon → Terminator (t :: us) us
  | leftOut {us : List Token} : nextKind us = .rBrace ∨ nextKind us = .eof → Terminator us us

/-- Parameters after the first, and the closing parenthesis. -/
inductive MoreParameters : List Token → List Identifier → List Token → Prop
  | close {t : Token} {us : List Token} : t.kind = .rParen → MoreParameters (t :: us) [] us
  | comma {c t : Token} {ts us : List Token} {names : List Identifier} :
      c.kind = .comma → t.kind = .ident → MoreParameters ts names us →
      MoreParameters (c :: t :: ts) (.ofToken t :: names) us

/-- Parameters with commas between them, and the closing parenthesis. -/
inductive Parameters : List Token → List Identifier → List Token → Prop
  | none {t : Token} {us : List Token} : t.kind = .rParen → Parameters (t :: us) [] us
  | some {t : Token} {ts us : List Token} {names : List Identifier} :
      t.kind = .ident → MoreParameters ts names us →
      Parameters (t :: ts) (.ofToken t :: names) us

/-! ## Expressions and statements -/

mutual

/-- An operation that opens a level for itself. -/
inductive Nested : Stratum → List Token → Expr → Nat → List Token → Prop
  | mk {s : Stratum} {ts us : List Token} {e : Expr} {k n : Nat} :
      Operation s ts e k n us → Nested s ts e (n + 1) us

/--
An expression of a stratum, with `k` operators applied at its left edge and `n` levels opened below
its own.
-/
inductive Operation : Stratum → List Token → Expr → Nat → Nat → List Token → Prop
  | atom {ts us : List Token} {e : Expr} {n : Nat} :
      Atom ts e n us → Operation .atom ts e 0 n us
  | tighter {s s' : Stratum} {ts us : List Token} {e : Expr} {k n : Nat} :
      s.tighter? = some s' → Operation s' ts e k n us → Operation s ts e k n us
  | binary {s : Stratum} {t : Token} {ts us vs : List Token} {op : BinaryOp} {left right : Expr}
      {k n m : Nat} :
      Operation (.ofOp op) ts left k n (t :: us) → t.kind = op.kind →
      (Stratum.ofOp op).tighter? = some s → Nested s us right m vs →
      Operation (.ofOp op) ts (.binary t left op right) (k + 1) (max n (k + 1 + m)) vs
  | unary {t : Token} {us vs : List Token} {op : UnaryOp} {right : Expr} {m : Nat} :
      t.kind = op.kind → Nested .unary us right m vs →
      Operation .unary (t :: us) (.unary t op right) 0 m vs
  | call {t : Token} {ts us vs : List Token} {callee : Expr} {arguments : List Expr}
      {k n m : Nat} :
      Operation .application ts callee k n (t :: us) → t.kind = .lParen →
      Items .rParen us arguments m vs →
      Operation .application ts (.call t callee arguments) (k + 1) (max n (k + 1 + m)) vs
  | index {t c : Token} {ts us vs : List Token} {left index : Expr} {k n m : Nat} :
      Operation .application ts left k n (t :: us) → t.kind = .lBracket →
      Nested .equality us index m (c :: vs) → c.kind = .rBracket →
      Operation .application ts (.index t left index) (k + 1) (max n (k + 1 + m)) vs

/-- An expression that no operator is applied to at its own level. -/
inductive Atom : List Token → Expr → Nat → List Token → Prop
  | identifier {t : Token} {us : List Token} :
      t.kind = .ident → Atom (t :: us) (.identifier (.ofToken t)) 0 us
  | integer {t : Token} {us : List Token} {value : Int64} :
      t.kind = .int → (Text.readInt? t.literal.toList).bind fit? = some value →
      Atom (t :: us) (.integer t value) 0 us
  | string {t : Token} {us : List Token} :
      t.kind = .string → Atom (t :: us) (.string t t.literal) 0 us
  | yes {t : Token} {us : List Token} : t.kind = .kwTrue → Atom (t :: us) (.boolean t true) 0 us
  | no {t : Token} {us : List Token} : t.kind = .kwFalse → Atom (t :: us) (.boolean t false) 0 us
  | grouped {t c : Token} {us vs : List Token} {e : Expr} {n : Nat} :
      t.kind = .lParen → Nested .equality us e n (c :: vs) → c.kind = .rParen →
      Atom (t :: us) e n vs
  | conditional {t p c : Token} {us vs ws : List Token} {condition : Expr} {body : Block}
      {n m : Nat} :
      t.kind = .kwIf → p.kind = .lParen → Nested .equality us condition n (c :: vs) →
      c.kind = .rParen → Braced vs body m ws →
      Atom (t :: p :: us) (.conditional t condition body none) (max n m) ws
  | alternative {t p c o : Token} {us vs ws xs : List Token} {condition : Expr}
      {body other : Block} {n m l : Nat} :
      t.kind = .kwIf → p.kind = .lParen → Nested .equality us condition n (c :: vs) →
      c.kind = .rParen → Braced vs body m (o :: ws) → o.kind = .kwElse → Braced ws other l xs →
      Atom (t :: p :: us) (.conditional t condition body (some other)) (max n (max m l)) xs
  | function {t p : Token} {us vs ws : List Token} {names : List Identifier} {body : Block}
      {n : Nat} :
      t.kind = .kwFn → p.kind = .lParen → Parameters us names vs → Braced vs body n ws →
      Atom (t :: p :: us) (.function ⟨t, names, body⟩) n ws
  | array {t : Token} {us vs : List Token} {elements : List Expr} {n : Nat} :
      t.kind = .lBracket → Items .rBracket us elements n vs →
      Atom (t :: us) (.array t elements) n vs
  | hash {t : Token} {us vs : List Token} {pairs : List (Expr × Expr)} {n : Nat} :
      t.kind = .lBrace → Pairs us pairs n vs → Atom (t :: us) (.hash t pairs) n vs

/-- Expressions with commas between them, and the closing token. -/
inductive Items : Kind → List Token → List Expr → Nat → List Token → Prop
  | none {closing : Kind} {t : Token} {us : List Token} :
      t.kind = closing → Items closing (t :: us) [] 0 us
  | some {closing : Kind} {ts us vs : List Token} {e : Expr} {es : List Expr} {n m : Nat} :
      Nested .equality ts e n us → MoreItems closing us es m vs →
      Items closing ts (e :: es) (max n m) vs

/-- Expressions after the first, and the closing token. -/
inductive MoreItems : Kind → List Token → List Expr → Nat → List Token → Prop
  | close {closing : Kind} {t : Token} {us : List Token} :
      t.kind = closing → MoreItems closing (t :: us) [] 0 us
  | comma {closing : Kind} {c : Token} {ts us vs : List Token} {e : Expr} {es : List Expr}
      {n m : Nat} :
      c.kind = .comma → Nested .equality ts e n us → MoreItems closing us es m vs →
      MoreItems closing (c :: ts) (e :: es) (max n m) vs

/-- Pairs with commas between them, one allowed after the last, and the closing brace. -/
inductive Pairs : List Token → List (Expr × Expr) → Nat → List Token → Prop
  | close {t : Token} {us : List Token} : t.kind = .rBrace → Pairs (t :: us) [] 0 us
  | last {c t : Token} {ts us vs : List Token} {key value : Expr} {n m : Nat} :
      Nested .equality ts key n (c :: us) → c.kind = .colon →
      Nested .equality us value m (t :: vs) → t.kind = .rBrace →
      Pairs ts [(key, value)] (max n m) vs
  | comma {c t : Token} {ts us vs ws : List Token} {key value : Expr}
      {pairs : List (Expr × Expr)} {n m l : Nat} :
      Nested .equality ts key n (c :: us) → c.kind = .colon →
      Nested .equality us value m (t :: vs) → t.kind = .comma → Pairs vs pairs l ws →
      Pairs ts ((key, value) :: pairs) (max (max n m) l) ws

/-- Statements in braces. -/
inductive Braced : List Token → Block → Nat → List Token → Prop
  | mk {t : Token} {us vs : List Token} {ss : List Stmt} {n : Nat} :
      t.kind = .lBrace → Body us ss n vs → Braced (t :: us) ⟨t, ss⟩ n vs

/-- Statements, and the closing brace. -/
inductive Body : List Token → List Stmt → Nat → List Token → Prop
  | close {t : Token} {us : List Token} : t.kind = .rBrace → Body (t :: us) [] 0 us
  | cons {ts us vs : List Token} {s : Stmt} {ss : List Stmt} {n m : Nat} :
      Statement ts s n us → Body us ss m vs → Body ts (s :: ss) (max n m) vs

/--
A statement. An expression without a semicolon ends where the next token cannot be read as an
operator on it.
-/
inductive Statement : List Token → Stmt → Nat → List Token → Prop
  | letBinding {t i a : Token} {ts us vs : List Token} {value : Expr} {n : Nat} :
      t.kind = .kwLet → i.kind = .ident → a.kind = .assign → Nested .equality ts value n us →
      Terminator us vs →
      Statement (t :: i :: a :: ts) (.letBinding t (.ofToken i) value) n vs
  | returning {t : Token} {ts us vs : List Token} {value : Expr} {n : Nat} :
      t.kind = .kwReturn → Nested .equality ts value n us → Terminator us vs →
      Statement (t :: ts) (.returning t value) n vs
  | ended {t : Token} {ts us : List Token} {e : Expr} {n : Nat} :
      Nested .equality ts e n (t :: us) → t.kind = .semicolon → Statement ts (.ofExpr e) n us
  | bare {ts us : List Token} {e : Expr} {n : Nat} :
      Nested .equality ts e n us → continues (nextKind us) = false → Statement ts (.ofExpr e) n us

end

/-- A program: statements up to the end. -/
inductive Statements : List Token → List Stmt → Nat → Prop
  | nil : Statements [] [] 0
  | cons {ts us : List Token} {s : Stmt} {ss : List Stmt} {n m : Nat} :
      Statement ts s n us → Statements us ss m → Statements ts (s :: ss) (max n m)

/-! ## A phrase has a token -/

/-- At least the closing parenthesis is taken. -/
theorem MoreParameters.length_lt {ts us : List Token} {names : List Identifier}
    (h : MoreParameters ts names us) : us.length < ts.length := by
  induction h with
  | close => simp
  | comma _ _ _ ih => simp only [List.length_cons]; omega

theorem Parameters.length_lt {ts us : List Token} {names : List Identifier}
    (h : Parameters ts names us) : us.length < ts.length := by
  cases h with
  | none => simp
  | some _ h => have := h.length_lt; simp only [List.length_cons]; omega

/-- A statement may end without a token, so here nothing need be taken. -/
theorem Terminator.length_le {ts us : List Token} (h : Terminator ts us) :
    us.length ≤ ts.length := by
  cases h <;> simp

mutual

/-- Every phrase with an expression in it takes a token, by recursion on its derivation. -/
theorem Nested.length_lt {s : Stratum} {ts us : List Token} {e : Expr} {n : Nat} :
    Nested s ts e n us → us.length < ts.length
  | .mk h => h.length_lt

theorem Operation.length_lt {s : Stratum} {ts us : List Token} {e : Expr} {k n : Nat} :
    Operation s ts e k n us → us.length < ts.length
  | .atom h => h.length_lt
  | .tighter _ h => h.length_lt
  | .binary hl _ _ hr => by
    have := hl.length_lt
    have := hr.length_lt
    simp only [List.length_cons] at *
    omega
  | .unary _ h => by
    have := h.length_lt
    simp only [List.length_cons] at *
    omega
  | .call hl _ hr => by
    have := hl.length_lt
    have := hr.length_lt
    simp only [List.length_cons] at *
    omega
  | .index hl _ hr _ => by
    have := hl.length_lt
    have := hr.length_lt
    simp only [List.length_cons] at *
    omega

theorem Atom.length_lt {ts us : List Token} {e : Expr} {n : Nat} :
    Atom ts e n us → us.length < ts.length
  | .identifier _ | .integer _ _ | .string _ | .yes _ | .no _ => by simp
  | .grouped _ h _ => by
    have := h.length_lt
    simp only [List.length_cons] at *
    omega
  | .conditional _ _ hc _ hb => by
    have := hc.length_lt
    have := hb.length_lt
    simp only [List.length_cons] at *
    omega
  | .alternative _ _ hc _ hb _ ho => by
    have := hc.length_lt
    have := hb.length_lt
    have := ho.length_lt
    simp only [List.length_cons] at *
    omega
  | .function _ _ hp hb => by
    have := hp.length_lt
    have := hb.length_lt
    simp only [List.length_cons] at *
    omega
  | .array _ h => by
    have := h.length_lt
    simp only [List.length_cons] at *
    omega
  | .hash _ h => by
    have := h.length_lt
    simp only [List.length_cons] at *
    omega

theorem Items.length_lt {closing : Kind} {ts us : List Token} {es : List Expr} {n : Nat} :
    Items closing ts es n us → us.length < ts.length
  | .none _ => by simp
  | .some h hm => by have := h.length_lt; have := hm.length_lt; omega

theorem MoreItems.length_lt {closing : Kind} {ts us : List Token} {es : List Expr} {n : Nat} :
    MoreItems closing ts es n us → us.length < ts.length
  | .close _ => by simp
  | .comma _ h hm => by
    have := h.length_lt
    have := hm.length_lt
    simp only [List.length_cons] at *
    omega

theorem Pairs.length_lt {ts us : List Token} {pairs : List (Expr × Expr)} {n : Nat} :
    Pairs ts pairs n us → us.length < ts.length
  | .close _ => by simp
  | .last hk _ hv _ => by
    have := hk.length_lt
    have := hv.length_lt
    simp only [List.length_cons] at *
    omega
  | .comma hk _ hv _ hp => by
    have := hk.length_lt
    have := hv.length_lt
    have := hp.length_lt
    simp only [List.length_cons] at *
    omega

theorem Braced.length_lt {ts us : List Token} {b : Block} {n : Nat} :
    Braced ts b n us → us.length < ts.length
  | .mk _ h => by
    have := h.length_lt
    simp only [List.length_cons] at *
    omega

/-- The closing brace is one of the tokens, so a body without statements takes one as well. -/
theorem Body.length_lt {ts us : List Token} {ss : List Stmt} {n : Nat} :
    Body ts ss n us → us.length < ts.length
  | .close _ => by simp
  | .cons hs hb => by have := hs.length_lt; have := hb.length_lt; omega

theorem Statement.length_lt {ts us : List Token} {s : Stmt} {n : Nat} :
    Statement ts s n us → us.length < ts.length
  | .letBinding _ _ _ h ht => by
    have := h.length_lt
    have := ht.length_le
    simp only [List.length_cons] at *
    omega
  | .returning _ h ht => by
    have := h.length_lt
    have := ht.length_le
    simp only [List.length_cons] at *
    omega
  | .ended h _ => by
    have := h.length_lt
    simp only [List.length_cons] at *
    omega
  | .bare h _ => h.length_lt

end

/-! ## Operators and levels -/

/-- Each operator at the left edge opens a level. -/
theorem Operation.le {s : Stratum} {ts us : List Token} {e : Expr} {k n : Nat} :
    Operation s ts e k n us → k ≤ n
  | .atom _ => Nat.zero_le _
  | .tighter _ h => h.le
  | .binary _ _ _ _ => Nat.le_trans (Nat.le_add_right _ _) (Nat.le_max_right _ _)
  | .unary _ _ => Nat.zero_le _
  | .call _ _ _ => Nat.le_trans (Nat.le_add_right _ _) (Nat.le_max_right _ _)
  | .index _ _ _ _ => Nat.le_trans (Nat.le_add_right _ _) (Nat.le_max_right _ _)

/-! ## First tokens -/

/-- Whether an expression may begin with a token of this kind. -/
def startsExpression : Kind → Bool
  | .ident | .int | .string | .kwTrue | .kwFalse | .bang | .minus | .lParen | .kwIf | .kwFn
  | .lBracket | .lBrace => true
  | _ => false

/-- Whether a statement may begin with a token of this kind. -/
def startsStatement (kind : Kind) : Bool :=
  kind = .kwLet || kind = .kwReturn || startsExpression kind

theorem startsExpression_kind (op : UnaryOp) : startsExpression op.kind = true := by
  cases op <;> rfl

/-- The first token of an atom tells which atom it is. -/
theorem Atom.starts {ts us : List Token} {e : Expr} {n : Nat} (h : Atom ts e n us) :
    startsExpression (nextKind ts) = true := by
  cases h <;> simp only [nextKind_cons, *] <;> rfl

mutual

/-- An expression begins where the operand at its left edge does. -/
theorem Nested.starts {s : Stratum} {ts us : List Token} {e : Expr} {n : Nat} :
    Nested s ts e n us → startsExpression (nextKind ts) = true
  | .mk h => h.starts

theorem Operation.starts {s : Stratum} {ts us : List Token} {e : Expr} {k n : Nat} :
    Operation s ts e k n us → startsExpression (nextKind ts) = true
  | .atom h => h.starts
  | .tighter _ h => h.starts
  | .binary h _ _ _ => h.starts
  | .unary hop _ => by rw [nextKind_cons, hop, startsExpression_kind]
  | .call h _ _ => h.starts
  | .index h _ _ _ => h.starts

end

/-- A statement begins with its keyword or with its expression. -/
theorem Statement.starts {ts us : List Token} {s : Stmt} {n : Nat} (h : Statement ts s n us) :
    startsStatement (nextKind ts) = true := by
  unfold startsStatement
  cases h with
  | letBinding hk => simp [hk]
  | returning hk => simp [hk]
  | ended he => simp [he.starts]
  | bare he => simp [he.starts]

end Phrase

end Ember
