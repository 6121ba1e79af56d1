import Ember.Proofs.Lexing.LongestMatch
import Ember.Proofs.Recovery.Placeholders
import Ember.Proofs.Tree.Unplaced

/-!
# The parser does not look at places

Every rule of the grammar decides by the kinds of tokens and, for a numeral, by the literal. So a
rule that is run on an input without places reads what it reads with them, but for the places
(`Unplaces`). That holds of recovery as well, which counts braces, and so of whole programs: token
lists with the same kinds and literals give the same statements and diagnostics, apart from places
(`Program.unplaced_ofTokens_congr`).
-/

namespace Ember

namespace Input

/-- The input without the places of its tokens. -/
def unplaced (i : Input) : Input := ⟨i.pending.map Token.unplaced, i.ending.unplaced⟩

@[simp] theorem head_unplaced (i : Input) : i.unplaced.head = i.head.unplaced := by
  obtain ⟨pending, ending⟩ := i
  cases pending <;> rfl

@[simp] theorem tail_unplaced (i : Input) : i.unplaced.tail = i.tail.unplaced := by
  simp [unplaced, tail, List.map_tail]

@[simp] theorem length_pending_unplaced (i : Input) :
    i.unplaced.pending.length = i.pending.length :=
  List.length_map ..

/-- Where a list of tokens is cut at its end of input is decided by kinds. -/
theorem ofList_unplaced (l : TokenList) :
    ofList ⟨l.tokens.map Token.unplaced⟩ = (ofList l).unplaced := by
  have hkind : ∀ accepts : Kind → Bool,
      (fun t : Token => accepts t.kind) ∘ Token.unplaced = fun t => accepts t.kind := fun _ => rfl
  have hending : ∀ t : Option Token, (t.map Token.unplaced).getD .endOfInput =
      (t.getD .endOfInput).unplaced := by rintro (_ | _) <;> rfl
  unfold ofList unplaced
  rw [List.takeWhile_map, List.find?_map, hkind (fun k => decide (k ≠ .eof)),
    hkind (fun k => decide (k = .eof)), hending]

end Input

namespace Rule

variable {α β γ δ : Type}

/-- What a rule answers, with `g` applied to what it read and without places in what is left. -/
def unplacedResult (g : α → β) :
    EStateM.Result Diagnostic Input α → EStateM.Result Diagnostic Input β
  | .ok a j => .ok (g a) j.unplaced
  | .error d j => .error d.unplaced j.unplaced

/-- On an input without places, the second rule does what the first one does with them. -/
def Unplaces (g : α → β) (r : Rule α) (r' : Rule β) : Prop :=
  ∀ i : Input, r' i.unplaced = unplacedResult g (r i)

namespace Unplaces

variable {g : α → β} {h : γ → δ} {r : Rule α} {r' : Rule β} {f : α → Rule γ} {f' : β → Rule δ}

/-- Only what is answered is without places. -/
theorem pure {a : α} {b : β} (hab : b = g a) : Unplaces g (Pure.pure a) (Pure.pure b) := by
  rw [hab]
  exact fun _ => rfl

/-- A failure names the token in front, which is the same token but for its place. -/
theorem fail (reason : Diagnostic.Reason) : Unplaces g (Rule.fail reason) (Rule.fail reason) := by
  intro i
  simp [Rule.fail, unplacedResult, Diagnostic.unplaced]

/-- If both rules of a sequence read without places what they read with them, the sequence does. -/
theorem bind (hr : Unplaces g r r') (hf : ∀ a, Unplaces h (f a) (f' (g a))) :
    Unplaces h (r >>= f) (r' >>= f') := by
  intro i
  have hri := hr i
  cases hanswer : r i with
  | ok a j =>
    rw [hanswer] at hri
    rw [bind_of_ok hanswer, bind_of_ok hri]
    exact hf a j
  | error d j =>
    rw [hanswer] at hri
    rw [bind_of_error hanswer, bind_of_error hri]
    rfl

theorem discard (hr : Unplaces g r r') : Unplaces id (Functor.discard r) (Functor.discard r') :=
  hr.bind fun _ => .pure rfl

theorem peek : Unplaces Token.unplaced Rule.peek Rule.peek := by
  intro i
  simp [Rule.peek, unplacedResult]

theorem peekKind : Unplaces id Rule.peekKind Rule.peekKind := by
  intro i
  simp [Rule.peekKind, unplacedResult]

theorem advance : Unplaces Token.unplaced Rule.advance Rule.advance := by
  intro i
  simp [Rule.advance, unplacedResult]

/-- A token is expected by its kind. -/
theorem expect (kind : Kind) : Unplaces Token.unplaced (Rule.expect kind) (Rule.expect kind) := by
  unfold Rule.expect
  refine peekKind.bind fun k => ?_
  show Unplaces _ _ (if k = kind then _ else _)
  split
  · exact advance
  · exact fail _

theorem atMost {accepts : Kind → Bool} (hr : Unplaces g r r') : ∀ n : Nat,
    Unplaces (List.map g) (Rule.atMost accepts r n) (Rule.atMost accepts r' n)
  | 0 => .pure rfl
  | n + 1 => by
    unfold Rule.atMost
    refine peekKind.bind fun k => ?_
    show Unplaces _ _ (if accepts k = true then _ else _)
    split
    · exact hr.bind fun a => (hr.atMost n).bind fun as => .pure rfl
    · exact .pure rfl

/-- The loop goes round as often, since there are as many tokens. -/
theorem whileNext {accepts : Kind → Bool} (hr : Unplaces g r r') :
    Unplaces (List.map g) (Rule.whileNext accepts r) (Rule.whileNext accepts r') := by
  intro i
  unfold Rule.whileNext
  rw [Input.length_pending_unplaced]
  exact hr.atMost _ i

end Unplaces

end Rule

namespace Grammar

open Rule

variable {α β : Type} {expr : Precedence → Rule Expr}

/-- The rule reads the same trees on an input without places. -/
def UnplacesExpr (expr : Precedence → Rule Expr) : Prop :=
  ∀ above, Unplaces Expr.unplaced (expr above) (expr above)

/-! ## Statements -/

theorem unplaces_terminator : Unplaces id terminator terminator := by
  unfold terminator
  refine Unplaces.peekKind.bind fun kind => ?_
  dsimp only [id]
  split
  · exact .pure rfl
  · exact .pure rfl
  · exact (Unplaces.expect _).discard

theorem unplaces_optionalSemicolon : Unplaces id optionalSemicolon optionalSemicolon := by
  unfold optionalSemicolon
  refine Unplaces.peekKind.bind fun kind => ?_
  dsimp only [id]
  split
  · exact Unplaces.advance.discard
  · exact .pure rfl

/--
Which statement is read is decided by the kind of its first token, and an expression statement takes
its token from its expression.
-/
theorem unplaces_statement (he : UnplacesExpr expr) :
    Unplaces Stmt.unplaced (statement expr) (statement expr) := by
  unfold statement
  refine Unplaces.peekKind.bind fun kind => ?_
  dsimp only [id]
  split
  · exact Unplaces.advance.bind fun token => (Unplaces.expect _).bind fun name =>
      (Unplaces.expect _).bind fun _ => (he .lowest).bind fun value =>
        unplaces_terminator.bind fun _ => .pure rfl
  · exact Unplaces.advance.bind fun token => (he .lowest).bind fun value =>
      unplaces_terminator.bind fun _ => .pure rfl
  · refine (he .lowest).bind fun value => unplaces_optionalSemicolon.bind fun _ => .pure ?_
    rw [Stmt.ofExpr, Expr.token_mapTokens]
    rfl

/-- The braces of a block are told by their kinds, and its statements are read one by one. -/
theorem unplaces_block (he : UnplacesExpr expr) :
    Unplaces Block.unplaced (block expr) (block expr) := by
  unfold block
  refine (Unplaces.expect _).bind fun token => ?_
  refine (unplaces_statement he).whileNext.bind fun statements => ?_
  refine (Unplaces.expect _).bind fun _ => .pure ?_
  rw [Block.unplaced, Block.mapTokens, mapTokensBody_eq_map]

/-! ## Lists -/

/-- A list with commas is read item by item, whatever the items are. -/
theorem unplaces_separated {g : α → β} {item : Rule α} {item' : Rule β}
    (hitem : Unplaces g item item') (closing : Kind) :
    Unplaces (List.map g) (separated item closing) (separated item' closing) := by
  unfold separated afterComma
  refine Unplaces.peekKind.bind fun kind => ?_
  dsimp only [id]
  split
  · exact Unplaces.advance.bind fun _ => .pure rfl
  · refine hitem.bind fun first => ?_
    refine (Unplaces.whileNext ((Unplaces.expect _).bind fun _ => hitem)).bind fun others => ?_
    exact (Unplaces.expect _).bind fun _ => .pure rfl

theorem unplaces_parameters :
    Unplaces (List.map Identifier.unplaced) parameters parameters := by
  unfold parameters
  refine (Unplaces.expect _).bind fun _ => unplaces_separated ?_ _
  exact (Unplaces.expect _).bind fun name => .pure rfl

theorem unplaces_pair (he : UnplacesExpr expr) :
    Unplaces (Prod.map Expr.unplaced Expr.unplaced) (pair expr) (pair expr) := by
  unfold pair
  refine (he .lowest).bind fun key => (Unplaces.expect _).bind fun _ => ?_
  refine (he .lowest).bind fun value => Unplaces.peekKind.bind fun kind => ?_
  dsimp only [id]
  split
  · exact (Unplaces.expect _).discard.bind fun _ => .pure rfl
  · exact .pure rfl

/-! ## Operands -/

/-- Whether a numeral fits is decided by its literal, which has no place in it. -/
theorem unplaces_integer : Unplaces Expr.unplaced integer integer := by
  unfold integer
  refine Unplaces.peek.bind fun token => ?_
  dsimp only [Token.literal_unplaced]
  split
  · exact Unplaces.advance.bind fun _ => .pure rfl
  · exact .fail _

theorem unplaces_grouped (he : UnplacesExpr expr) :
    Unplaces Expr.unplaced (grouped expr) (grouped expr) := by
  unfold grouped
  exact (Unplaces.expect _).bind fun _ => (he .lowest).bind fun inner =>
    (Unplaces.expect _).bind fun _ => .pure rfl

theorem unplaces_conditional (he : UnplacesExpr expr) :
    Unplaces Expr.unplaced (conditional expr) (conditional expr) := by
  unfold conditional
  refine (Unplaces.expect _).bind fun token => (unplaces_grouped he).bind fun condition => ?_
  refine (unplaces_block he).bind fun consequence => Unplaces.peekKind.bind fun kind => ?_
  dsimp only [id]
  split
  · exact Unplaces.advance.bind fun _ => (unplaces_block he).bind fun alternative => .pure rfl
  · exact .pure rfl

theorem unplaces_functionLiteral (he : UnplacesExpr expr) :
    Unplaces Expr.unplaced (functionLiteral expr) (functionLiteral expr) := by
  unfold functionLiteral
  exact (Unplaces.expect _).bind fun token => unplaces_parameters.bind fun names =>
    (unplaces_block he).bind fun body => .pure rfl

theorem unplaces_arrayLiteral (he : UnplacesExpr expr) :
    Unplaces Expr.unplaced (arrayLiteral expr) (arrayLiteral expr) := by
  unfold arrayLiteral
  refine (Unplaces.expect _).bind fun token => ?_
  refine (unplaces_separated (he .lowest) _).bind fun elements => .pure ?_
  rw [Expr.unplaced, Expr.mapTokens, mapTokensList_eq_map]

theorem unplaces_hashLiteral (he : UnplacesExpr expr) :
    Unplaces Expr.unplaced (hashLiteral expr) (hashLiteral expr) := by
  unfold hashLiteral
  refine (Unplaces.expect _).bind fun token => ?_
  refine (unplaces_pair he).whileNext.bind fun pairs => ?_
  refine (Unplaces.expect _).bind fun _ => .pure ?_
  rw [Expr.unplaced, Expr.mapTokens, mapTokensPairs_eq_map]

theorem unplaces_unary (he : UnplacesExpr expr) :
    Unplaces Expr.unplaced (unary expr) (unary expr) := by
  unfold unary
  refine Unplaces.peek.bind fun token => ?_
  dsimp only [Token.kind_unplaced]
  split
  · exact Unplaces.advance.bind fun _ => (he .unary).bind fun right => .pure rfl
  · exact .fail _

/-- The kind of the next token chooses the rule; every operand is read by a rule of its own. -/
theorem unplaces_operand (he : UnplacesExpr expr) :
    Unplaces Expr.unplaced (operand expr) (operand expr) := by
  unfold operand
  refine Unplaces.peek.bind fun token => ?_
  have htoken : ∀ e e' : Expr, e' = e.unplaced →
      Unplaces Expr.unplaced (advance >>= fun _ => pure e) (advance >>= fun _ => pure e') :=
    fun e e' h => Unplaces.advance.bind fun _ => .pure h
  dsimp only [Token.kind_unplaced, Token.literal_unplaced]
  split
  · exact htoken _ _ rfl
  · exact unplaces_integer
  · exact htoken _ _ rfl
  · exact htoken _ _ rfl
  · exact htoken _ _ rfl
  · exact unplaces_grouped he
  · exact unplaces_conditional he
  · exact unplaces_functionLiteral he
  · exact unplaces_arrayLiteral he
  · exact unplaces_hashLiteral he
  · exact unplaces_unary he

/-! ## Expressions -/

/-- An operator is told by its kind, and so is how tightly it binds. -/
theorem unplaces_operatorAfter (he : UnplacesExpr expr) (left : Expr) :
    Unplaces Expr.unplaced (operatorAfter expr left) (operatorAfter expr left.unplaced) := by
  unfold operatorAfter
  refine Unplaces.peek.bind fun token => ?_
  dsimp only [Token.kind_unplaced]
  split
  · refine Unplaces.advance.bind fun _ => ?_
    refine (unplaces_separated (he .lowest) _).bind fun arguments => .pure ?_
    rw [Expr.unplaced, Expr.mapTokens, mapTokensList_eq_map]
  · exact Unplaces.advance.bind fun _ => (he .lowest).bind fun index =>
      (Unplaces.expect _).bind fun _ => .pure rfl
  · split
    · exact Unplaces.advance.bind fun _ => (he _).bind fun right => .pure rfl
    · exact .fail _

theorem unplaces_operators : ∀ (levels : Nat) (above : Precedence) (left : Expr),
    (∀ l < levels, UnplacesExpr (expression l)) →
      Unplaces Expr.unplaced (operators levels above left) (operators levels above left.unplaced)
  -- On the levels: behind an operator the loop goes on with one level less.
  | 0, above, left, _ => by
    unfold operators
    refine Unplaces.peekKind.bind fun kind => ?_
    dsimp only [id]
    split
    · exact .fail _
    · exact .pure rfl
  | levels + 1, above, left, he => by
    unfold operators
    refine Unplaces.peekKind.bind fun kind => ?_
    dsimp only [id]
    split
    · refine (unplaces_operatorAfter (he levels (by omega)) left).bind fun whole => ?_
      exact unplaces_operators levels above whole fun l hl => he l (by omega)
    · exact .pure rfl

theorem unplaces_expression (levels : Nat) : UnplacesExpr (expression levels) := by
  -- An operand is read one level down, and each operator further down still.
  induction levels using Nat.strongRecOn with
  | ind levels ih =>
    intro above
    cases levels with
    | zero => exact .fail _
    | succ levels =>
      unfold expression
      refine (unplaces_operand (ih levels (by omega))).bind fun left => ?_
      exact unplaces_operators levels above left fun l hl => ih l (by omega)

end Grammar

/-! ## Recovery -/

namespace Recovery

/-- Braces are counted by kinds. -/
theorem openBraces_unplaced (ts : List Token) :
    openBraces (ts.map Token.unplaced) = openBraces ts := by
  induction ts with
  | nil => rfl
  | cons t ts ih => rw [List.map_cons, openBraces, openBraces, ih]; rfl

/-- Where a skip stops is decided by the kinds of the tokens and the number of open braces. -/
theorem skip_unplaced (depth : Int) (ts : List Token) :
    skip depth (ts.map Token.unplaced) = (skip depth ts).map Token.unplaced := by
  induction ts generalizing depth with
  | nil => rfl
  | cons t ts ih =>
    have hchange : braceChange t.unplaced = braceChange t := rfl
    have hstarts : startsStatement t.unplaced = startsStatement t := rfl
    simp only [List.map_cons, skip, Token.kind_unplaced, hchange, hstarts, ih]
    split
    · rfl
    split
    · rfl
    · rfl

/-- Parsing goes on at the same token. -/
theorem resume_unplaced (start stopped : Input) :
    resume start.unplaced stopped.unplaced = (resume start stopped).unplaced := by
  simp [resume, Input.unplaced, ← List.map_take, openBraces_unplaced, skip_unplaced]

end Recovery

/-! ## Programs -/

open Grammar Rule

/-- A statement is read, or recovered from, as it is without places. -/
theorem readStatements_unplaced (n : Nat) (i : Input) : readStatements n i.unplaced =
    (readStatements n i).map (List.map Stmt.unplaced) (List.map Diagnostic.unplaced) := by
  induction n generalizing i with
  | zero => rfl
  | succ n ih =>
    have hempty : i.unplaced.pending.isEmpty = i.pending.isEmpty := List.isEmpty_map
    rw [readStatements, readStatements, hempty,
      unplaces_statement (unplaces_expression maxNesting) i]
    split
    · rfl
    cases statement (expression maxNesting) i with
    | ok s j => simp [unplacedResult, ih]
    | error d j => simp [unplacedResult, Recovery.resume_unplaced, ih, Diagnostic.unplaced,
        Stmt.mapTokens]

namespace Program

/-- The program without the places of its tokens and of those that were found wrong. -/
def unplaced (p : Program) : Program :=
  ⟨p.statements.map Stmt.unplaced, p.diagnostics.map Diagnostic.unplaced⟩

theorem ofTokens_unplaced (l : TokenList) :
    ofTokens ⟨l.tokens.map Token.unplaced⟩ = (ofTokens l).unplaced := by
  rw [ofTokens_eq, ofTokens_eq, Input.ofList_unplaced, readAll, Input.length_pending_unplaced,
    readStatements_unplaced]
  rfl

/-- Tokens with the same kinds and literals give the same program, but for the places. -/
theorem unplaced_ofTokens_congr {l k : TokenList}
    (h : l.tokens.map Token.piece = k.tokens.map Token.piece) :
    (ofTokens l).unplaced = (ofTokens k).unplaced := by
  have hunplaced : ∀ ts : List Token,
      ts.map Token.unplaced = (ts.map Token.piece).map fun p => .synthetic p.1 p.2 := by
    intro ts
    rw [List.map_map]
    rfl
  rw [← ofTokens_unplaced, ← ofTokens_unplaced, hunplaced, hunplaced, h]

end Program

end Ember
