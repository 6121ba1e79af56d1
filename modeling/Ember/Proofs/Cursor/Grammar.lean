import Ember.Parser.Program

/-!
# Parsing by position

The rules of the grammar read from an input that holds the tokens up to the first end of input and
nothing else. Here the same grammar is read by a cursor instead: a position in the list as it is
given, which may have no end of input, or several, or tokens behind one. The cursor looks at the
token at its position and at the one behind that, whatever it is, and moves on by one token, but
never from an end of input.

A rule starts with the cursor on its first token and leaves it on its last one. A rule that fails
leaves the cursor on the token that it reports.

## Termination

Nothing in a rule says that its loops and calls come to an end. To be run, every rule that may call
itself is given a number, how deep calls may go in it, and it has no result where that is not deep
enough; a loop calls itself for the runs that are left. So a rule ends if from some depth on it has
a result, and always the same one (`Comes`). The rules themselves do not count this depth. They
count the levels of nesting that are open, and opening one more than `maxNesting` is what fails.
-/

namespace Ember

/-- A position in a list of tokens, and how many levels of nesting are open there. -/
structure Cursor where
  tokens : List Token
  position : Nat
  nesting : Nat

namespace Cursor

/-- The token at the position. -/
def current (c : Cursor) : Token := c.tokens[c.position]?.getD .endOfInput

/-- The token behind the one at the position. -/
def peek (c : Cursor) : Token := c.tokens[c.position + 1]?.getD .endOfInput

/-- Moves on by one token, unless the cursor is on an end of input. -/
def advance (c : Cursor) : Cursor :=
  if c.current.kind = .eof then c else { c with position := c.position + 1 }

/-- The braces opened less those closed by the tokens from `start` up to the one at the position. -/
def openBraces (c : Cursor) (start : Nat) : Int :=
  Recovery.openBraces ((c.tokens.take (c.position + 1)).drop start)

end Cursor

/--
A procedure that moves a cursor. It may fail with a diagnostic, and it has no result where its calls
go too deep.
-/
abbrev Walk := ExceptT Diagnostic (StateT Cursor Option)

/-- From some depth on there is a result, and always the same one. -/
def Comes {α : Type} (w : Nat → Option α) (a : α) : Prop := ∃ n, ∀ m ≥ n, w m = some a

namespace Walk

/-! ## Commands -/

/-- Calls have gone too deep. -/
def tooDeep {α : Type} : Walk α := fun _ => none

/-- The token at the position. -/
def current : Walk Token := return (← get).current

/-- The token behind the one at the position. -/
def peek : Walk Token := return (← get).peek

/-- Moves on by one token. -/
def advance : Walk Unit := modify Cursor.advance

/-- Moves on to the next token, which must be of the given kind. -/
def expectPeek (kind : Kind) : Walk Token := do
  let found ← peek
  advance
  if found.kind = kind then pure found else throw ⟨.unexpectedToken kind, found⟩

/-- The token at the position, which must be of the given kind. -/
def expectCurrent (kind : Kind) : Walk Token := do
  let found ← current
  if found.kind = kind then pure found else throw ⟨.unexpectedToken kind, found⟩

/-- Opens a level of nesting. -/
def openLevel : Walk Unit := do
  modify fun c => { c with nesting := c.nesting + 1 }
  let c ← get
  if maxNesting < c.nesting then throw ⟨.nestedTooDeeply maxNesting, c.current⟩

/-! ## Rules without expressions -/

/-- The semicolon after a `let` or `return`, which may be left out before a brace or the end. -/
def terminator : Walk Unit := do
  match (← peek).kind with
  | .rBrace | .eof => pure ()
  | _ => discard (expectPeek .semicolon)

/-- The semicolon after an expression, which may be left out anywhere. -/
def optionalSemicolon : Walk Unit := do
  if (← peek).kind = .semicolon then advance

/-- A parameter behind a comma. -/
def nextParameter : Walk Identifier := do
  advance
  advance
  let name ← expectCurrent .ident
  pure (.ofToken name)

/-- The parameters behind the first one. -/
def moreParameters : Nat → Walk (List Identifier)
  | 0 => tooDeep
  | n + 1 => do
    if (← peek).kind = .comma then
      let name ← nextParameter
      let names ← moreParameters n
      pure (name :: names)
    else
      pure []

/-- Parameters, with the cursor on the opening parenthesis. -/
def parameters (n : Nat) : Walk (List Identifier) := do
  if (← peek).kind = .rParen then
    advance
    pure []
  else
    advance
    let name ← expectCurrent .ident
    let names ← moreParameters n
    let _ ← expectPeek .rParen
    pure (.ofToken name :: names)

/-! ## Statements and expressions -/

mutual

/-- A statement: `let`, `return` or an expression. -/
def statement : Nat → Walk Stmt
  | 0 => tooDeep
  | n + 1 => do
    let token ← current
    match token.kind with
    | .kwLet =>
      let name ← expectPeek .ident
      let _ ← expectPeek .assign
      advance
      let value ← expression n .lowest
      terminator
      pure (.letBinding token (.ofToken name) value)
    | .kwReturn =>
      advance
      let value ← expression n .lowest
      terminator
      pure (.returning token value)
    | _ =>
      let value ← expression n .lowest
      optionalSemicolon
      pure (.ofExpr value)

/-- A statement in braces, with the cursor moved on behind it. -/
def blockStatement : Nat → Walk Stmt
  | 0 => tooDeep
  | n + 1 => do
    let s ← statement n
    advance
    pure s

/-- Statements up to a closing brace. -/
def blockStatements : Nat → Walk (List Stmt)
  | 0 => tooDeep
  | n + 1 => do
    let token ← current
    if token.kind = .rBrace then
      pure []
    else if token.kind = .eof then
      throw ⟨.unexpectedToken .rBrace, token⟩
    else
      let s ← blockStatement n
      let ss ← blockStatements n
      pure (s :: ss)

/-- Statements in braces. -/
def block : Nat → Walk Block
  | 0 => tooDeep
  | n + 1 => do
    let token ← current
    advance
    let statements ← blockStatements n
    pure ⟨token, statements⟩

/-- An expression behind a comma. -/
def nextExpression : Nat → Walk Expr
  | 0 => tooDeep
  | n + 1 => do
    advance
    advance
    expression n .lowest

/-- The expressions behind the first one. -/
def moreExpressions : Nat → Walk (List Expr)
  | 0 => tooDeep
  | n + 1 => do
    if (← peek).kind = .comma then
      let e ← nextExpression n
      let es ← moreExpressions n
      pure (e :: es)
    else
      pure []

/-- Expressions with commas between them, with the cursor on the opening token. -/
def expressions : Nat → Kind → Walk (List Expr)
  | 0, _ => tooDeep
  | n + 1, closing => do
    if (← peek).kind = closing then
      advance
      pure []
    else
      advance
      let first ← expression n .lowest
      let others ← moreExpressions n
      let _ ← expectPeek closing
      pure (first :: others)

/-- A key and its value behind a brace or a comma, and the comma behind them. -/
def nextPair : Nat → Walk (Expr × Expr)
  | 0 => tooDeep
  | n + 1 => do
    advance
    let key ← expression n .lowest
    let _ ← expectPeek .colon
    advance
    let value ← expression n .lowest
    if (← peek).kind ≠ .rBrace then discard (expectPeek .comma)
    pure (key, value)

/-- Pairs up to a closing brace. -/
def pairs : Nat → Walk (List (Expr × Expr))
  | 0 => tooDeep
  | n + 1 => do
    if (← peek).kind = .rBrace then
      pure []
    else
      let p ← nextPair n
      let ps ← pairs n
      pure (p :: ps)

/-- `if`, a condition in parentheses and one or two blocks. -/
def conditional : Nat → Walk Expr
  | 0 => tooDeep
  | n + 1 => do
    let token ← current
    let _ ← expectPeek .lParen
    advance
    let condition ← expression n .lowest
    let _ ← expectPeek .rParen
    let _ ← expectPeek .lBrace
    let consequence ← block n
    if (← peek).kind = .kwElse then
      advance
      let _ ← expectPeek .lBrace
      let alternative ← block n
      pure (.conditional token condition consequence (some alternative))
    else
      pure (.conditional token condition consequence none)

/-- An operator before its operand. -/
def unary : Nat → Walk Expr
  | 0 => tooDeep
  | n + 1 => do
    let token ← current
    match UnaryOp.ofKind? token.kind with
    | some op =>
      advance
      let right ← expression n .unary
      pure (.unary token op right)
    | none => throw ⟨.noPrefixRule, token⟩

/-- What may stand first in an expression. -/
def operand : Nat → Walk Expr
  | 0 => tooDeep
  | n + 1 => do
    let token ← current
    match token.kind with
    | .ident => pure (.identifier (.ofToken token))
    | .int =>
      match (Text.readInt? token.literal.toList).bind fit? with
      | some value => pure (.integer token value)
      | none => throw ⟨.invalidInteger, token⟩
    | .string => pure (.string token token.literal)
    | .kwTrue => pure (.boolean token true)
    | .kwFalse => pure (.boolean token false)
    | .bang | .minus => unary n
    | .lParen =>
      advance
      let inner ← expression n .lowest
      let _ ← expectPeek .rParen
      pure inner
    | .kwIf => conditional n
    | .kwFn =>
      let _ ← expectPeek .lParen
      let names ← parameters n
      let _ ← expectPeek .lBrace
      let body ← block n
      pure (.function ⟨token, names, body⟩)
    | .lBracket =>
      let elements ← expressions n .rBracket
      pure (.array token elements)
    | .lBrace =>
      let entries ← pairs n
      let _ ← expectPeek .rBrace
      pure (.hash token entries)
    | _ => throw ⟨.noPrefixRule, token⟩

/-- A call, an element access or a binary operator, with the cursor on the token after `left`. -/
def operatorAfter : Nat → Expr → Walk Expr
  | 0, _ => tooDeep
  | n + 1, left => do
    let token ← current
    match token.kind with
    | .lParen =>
      let arguments ← expressions n .rParen
      pure (.call token left arguments)
    | .lBracket =>
      advance
      let index ← expression n .lowest
      let _ ← expectPeek .rBracket
      pure (.index token left index)
    | kind =>
      match BinaryOp.ofKind? kind with
      | some op =>
        advance
        let right ← expression n (.ofKind kind)
        pure (.binary token left op right)
      | none => throw ⟨.noPrefixRule, token⟩

/-- The operators after `left` that bind tighter than `above`, each on a level of its own. -/
def operators : Nat → Precedence → Expr → Walk Expr
  | 0, _, _ => tooDeep
  | n + 1, above, left => do
    let kind := (← peek).kind
    if kind ≠ .semicolon ∧ above < .ofKind kind then
      advance
      openLevel
      let whole ← operatorAfter n left
      operators n above whole
    else
      pure left

/-- An expression whose operators bind tighter than `above`, on a level of its own. -/
def level : Nat → Precedence → Walk Expr
  | 0, _ => tooDeep
  | n + 1, above => do
    openLevel
    let left ← operand n
    operators n above left

/-- An expression. However it ends, the levels that were opened in it are given back. -/
def expression : Nat → Precedence → Walk Expr
  | 0, _ => tooDeep
  | n + 1, above => (do
    let entry := (← get).nesting
    let result ← (level n above).run
    modify fun c => { c with nesting := entry }
    pure result : StateT Cursor Option (Except Diagnostic Expr))

end

/-- A single expression, a semicolon allowed after it, up to the end of the input. -/
def wholeExpression (n : Nat) : Walk Expr := do
  let e ← expression n .lowest
  optionalSemicolon
  let _ ← expectPeek .eof
  pure e

end Walk

/-! ## Programs -/

namespace Cursor

/-- Skips to the next start of a statement, with so many braces open. -/
def skip : Nat → Int → StateT Cursor Option Unit
  | 0, _ => fun _ => none
  | n + 1, depth => do
    let token := (← get).current
    if token.kind = .eof then
      pure ()
    else if depth ≤ 0 ∧ token.kind = .semicolon then
      modify advance
    else if depth ≤ 0 ∧ Recovery.startsStatement token then
      pure ()
    else
      modify advance
      skip n (depth + Recovery.braceChange token)

/--
Goes on after a statement that began at `start` has failed at the position. The token there is
skipped, but for a keyword that the statement did not itself begin with.
-/
def resume (n start : Nat) : StateT Cursor Option Unit := do
  let c ← get
  let depth := c.openBraces start
  if depth ≤ 0 ∧ c.current.kind = .semicolon then
    modify advance
  else if start < c.position ∧ depth ≤ 0 ∧ Recovery.startsStatement c.current then
    skip n depth
  else
    modify advance
    skip n depth

/-- A statement and the step behind it, or a failed one and what recovery skips. -/
def round (n : Nat) : StateT Cursor Option (Except Diagnostic Stmt) := do
  let start := (← get).position
  let result ← (Walk.statement n).run
  match result with
  | .ok _ => modify advance
  | .error _ => resume n start
  pure result

/-- Statements up to the end of the input. -/
def rounds : Nat → StateT Cursor Option (List Stmt × List Diagnostic)
  | 0 => fun _ => none
  | n + 1 => do
    if (← get).current.kind = .eof then
      pure ([], [])
    else
      match ← round n with
      | .ok s =>
        let (statements, diagnostics) ← rounds n
        pure (s :: statements, diagnostics)
      | .error d =>
        let (statements, diagnostics) ← rounds n
        pure (.missing d.found :: statements, d :: diagnostics)

/-- A cursor on the first token of a list. -/
def start (l : TokenList) : Cursor := ⟨l.tokens, 0, 0⟩

/-- Parses a list of tokens by position. -/
def program (l : TokenList) (n : Nat) : Option Program :=
  ((rounds n).run (start l)).map fun ((statements, diagnostics), _) => ⟨statements, diagnostics⟩

/-- Parses a list of tokens as one expression, by position. -/
def singleExpression (l : TokenList) (n : Nat) : Option (Expr × List Diagnostic) :=
  ((Walk.wholeExpression n).run.run (start l)).map fun
    | (.ok e, _) => (e, [])
    | (.error d, _) => (.missing d.found, [d])

end Cursor

end Ember
