import Ember.Proofs.Canonical.Scan
import Ember.Tree.Program

/-!
# Canonical trees

What the text of a tree is read as: its `pieces`, written down from the tree without a text, and the
number of levels of nesting that reading them opens (`Stmt.levels`). A tree that the grammar can
give is `Writable`: no placeholders, names that are words and not reserved, no negative literals and
no quotes in strings.

## Levels

As in the grammar, an expression opens a level for itself. Every other node that is written around
its operands does so in parentheses, which open a level of their own; only calls are written behind
their callee without any, so `chain` counts the calls at the left edge of an expression.
-/

namespace Ember

/-! ## Trees that can be read back -/

/-- The name is a word and not a reserved one. -/
def Identifier.Writable (i : Identifier) : Prop :=
  IsWord i.name ∧ Kind.ofKeyword? i.name = none

mutual

/-- Nothing in the expression is a placeholder or beyond what literals can express. -/
def Expr.Writable : Expr → Prop
  | .identifier name => name.Writable
  | .integer _ value => 0 ≤ value.toInt
  | .boolean _ _ => True
  | .string _ value => '"' ∉ value.toList
  | .array _ elements => WritableList elements
  | .hash _ pairs => WritablePairs pairs
  | .unary _ _ right => right.Writable
  | .binary _ left _ right => left.Writable ∧ right.Writable
  | .conditional _ condition consequence none => condition.Writable ∧ consequence.Writable
  | .conditional _ condition consequence (some alternative) =>
    condition.Writable ∧ consequence.Writable ∧ alternative.Writable
  | .function literal => literal.Writable
  | .call _ callee arguments => callee.Writable ∧ WritableList arguments
  | .index _ left index => left.Writable ∧ index.Writable
  | .missing _ => False

def WritableList : List Expr → Prop
  | [] => True
  | e :: es => e.Writable ∧ WritableList es

def WritablePairs : List (Expr × Expr) → Prop
  | [] => True
  | (key, value) :: pairs => key.Writable ∧ value.Writable ∧ WritablePairs pairs

def FunctionLiteral.Writable : FunctionLiteral → Prop
  | ⟨_, parameters, body⟩ => (∀ i ∈ parameters, i.Writable) ∧ body.Writable

def Block.Writable : Block → Prop
  | ⟨_, statements⟩ => WritableBody statements

def WritableBody : List Stmt → Prop
  | [] => True
  | s :: ss => s.Writable ∧ WritableBody ss

/-- A `let`, a `return` or an expression, with nothing in it that cannot be read back. -/
def Stmt.Writable : Stmt → Prop
  | .letBinding _ name value => name.Writable ∧ value.Writable
  | .returning _ value => value.Writable
  | .expression _ expr => expr.Writable
  | .block _ => False
  | .missing _ => False

end

/-! ## What a tree is written as -/

/-- The pieces of parameters, with commas between them. -/
def parameterPieces : List Identifier → List Piece
  | [] => []
  | [i] => [(.ident, i.name)]
  | i :: is => (.ident, i.name) :: (.comma, ",") :: parameterPieces is

mutual

/-- The pieces of an expression. -/
def Expr.pieces : Expr → List Piece
  | .identifier name => [(.ident, name.name)]
  | .integer _ value => [(.int, Text.writeInt value.toInt)]
  | .boolean _ value => [if value then (.kwTrue, "true") else (.kwFalse, "false")]
  | .string _ value => [(.string, value)]
  | .array _ elements => (.lBracket, "[") :: (listPieces elements ++ [(.rBracket, "]")])
  | .hash _ pairs => (.lBrace, "\x7b") :: (pairPieces pairs ++ [(.rBrace, "\x7d")])
  | .unary _ op right =>
    (.lParen, "(") :: (op.kind, op.symbol) :: (right.pieces ++ [(.rParen, ")")])
  | .binary _ left op right =>
    (.lParen, "(") :: (left.pieces ++ (op.kind, op.symbol) :: (right.pieces ++ [(.rParen, ")")]))
  | .conditional _ condition consequence none =>
    (.kwIf, "if") :: (.lParen, "(") :: (condition.pieces ++ (.rParen, ")") :: consequence.pieces)
  | .conditional _ condition consequence (some alternative) =>
    (.kwIf, "if") :: (.lParen, "(") :: (condition.pieces ++
      (.rParen, ")") :: (consequence.pieces ++ (.kwElse, "else") :: alternative.pieces))
  | .function literal => literal.pieces
  | .call _ callee arguments =>
    callee.pieces ++ (.lParen, "(") :: (listPieces arguments ++ [(.rParen, ")")])
  | .index _ left index =>
    (.lParen, "(") :: (left.pieces ++
      (.lBracket, "[") :: (index.pieces ++ [(.rBracket, "]"), (.rParen, ")")]))
  | .missing _ => []

/-- The pieces of expressions, with commas between them. -/
def listPieces : List Expr → List Piece
  | [] => []
  | [e] => e.pieces
  | e :: es => e.pieces ++ (.comma, ",") :: listPieces es

/-- The pieces of the pairs of a hash literal, with commas between them. -/
def pairPieces : List (Expr × Expr) → List Piece
  | [] => []
  | [(key, value)] => key.pieces ++ (.colon, ":") :: value.pieces
  | (key, value) :: pairs =>
    key.pieces ++ (.colon, ":") :: (value.pieces ++ (.comma, ",") :: pairPieces pairs)

def FunctionLiteral.pieces : FunctionLiteral → List Piece
  | ⟨_, parameters, body⟩ =>
    (.kwFn, "fn") :: (.lParen, "(") :: (parameterPieces parameters ++ (.rParen, ")") :: body.pieces)

def Block.pieces : Block → List Piece
  | ⟨_, statements⟩ => (.lBrace, "\x7b") :: (bodyPieces statements ++ [(.rBrace, "\x7d")])

def bodyPieces : List Stmt → List Piece
  | [] => []
  | s :: ss => s.pieces ++ bodyPieces ss

/-- The pieces of a statement. -/
def Stmt.pieces : Stmt → List Piece
  | .letBinding _ name value =>
    (.kwLet, "let") :: (.ident, name.name) ::
      (.assign, "=") :: (value.pieces ++ [(.semicolon, ";")])
  | .returning _ value => (.kwReturn, "return") :: (value.pieces ++ [(.semicolon, ";")])
  | .expression _ expr => expr.pieces ++ [(.semicolon, ";")]
  | .block body => body.pieces
  | .missing _ => []

end

theorem listPieces_cons_cons (e f : Expr) (es : List Expr) :
    listPieces (e :: f :: es) = e.pieces ++ (.comma, ",") :: listPieces (f :: es) := rfl

theorem pairPieces_cons_cons (key value : Expr) (pair : Expr × Expr) (pairs : List (Expr × Expr)) :
    pairPieces ((key, value) :: pair :: pairs)
      = key.pieces ++ (.colon, ":") :: (value.pieces ++ (.comma, ",") :: pairPieces (pair :: pairs))
    := rfl

/-! ## Levels -/

/-- The number of calls at the left edge of the text of an expression. -/
def Expr.chain : Expr → Nat
  | .call _ callee _ => callee.chain + 1
  | _ => 0

mutual

/-- How many levels are opened at once below the level of the expression itself. -/
def Expr.depth : Expr → Nat
  | .array _ elements => listDepth elements
  | .hash _ pairs => pairDepth pairs
  | .unary _ _ right => right.depth + 2
  | .binary _ left _ right => max left.depth (left.chain + 1 + (right.depth + 1)) + 1
  | .conditional _ condition consequence none => max (condition.depth + 1) consequence.depth
  | .conditional _ condition consequence (some alternative) =>
    max (condition.depth + 1) (max consequence.depth alternative.depth)
  | .function literal => literal.depth
  | .call _ callee arguments => max callee.depth (callee.chain + 1 + listDepth arguments)
  | .index _ left index => max left.depth (left.chain + 1 + (index.depth + 1)) + 1
  | .identifier _ | .integer _ _ | .boolean _ _ | .string _ _ | .missing _ => 0

def listDepth : List Expr → Nat
  | [] => 0
  | e :: es => max (e.depth + 1) (listDepth es)

def pairDepth : List (Expr × Expr) → Nat
  | [] => 0
  | (key, value) :: pairs => max (max (key.depth + 1) (value.depth + 1)) (pairDepth pairs)

def FunctionLiteral.depth : FunctionLiteral → Nat
  | ⟨_, _, body⟩ => body.depth

def Block.depth : Block → Nat
  | ⟨_, statements⟩ => bodyDepth statements

def bodyDepth : List Stmt → Nat
  | [] => 0
  | s :: ss => max s.levels (bodyDepth ss)

/-- How many levels are opened at once by reading the text of a statement. -/
def Stmt.levels : Stmt → Nat
  | .letBinding _ _ value => value.depth + 1
  | .returning _ value => value.depth + 1
  | .expression _ expr => expr.depth + 1
  | .block body => body.depth
  | .missing _ => 0

end

/-- Reading statements opens as many levels as the one that opens the most. -/
theorem bodyDepth_le_iff {n : Nat} {ss : List Stmt} :
    bodyDepth ss ≤ n ↔ ∀ s ∈ ss, s.levels ≤ n := by
  induction ss with
  | nil => simp [bodyDepth]
  | cons s ss ih => rw [bodyDepth, Nat.max_le, ih, List.forall_mem_cons]

end Ember
