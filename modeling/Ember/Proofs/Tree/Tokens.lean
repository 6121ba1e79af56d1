import Ember.Tree.Printer

/-!
# Other tokens in a tree

A tree keeps the tokens that it was read from. `Stmt.mapTokens` puts others in their places and
leaves the rest as it is: names, literals and operators. The canonical text is written from these,
so it stays the same (`Stmt.render_mapTokens`).

A tree is `bare` when its tokens say nothing. Trees that differ in their tokens only have the same
bare tree.
-/

namespace Ember

/-- The name with another token. -/
def Identifier.mapTokens (f : Token → Token) (i : Identifier) : Identifier := ⟨f i.token, i.name⟩

mutual

/-- The expression with other tokens. -/
def Expr.mapTokens (f : Token → Token) : Expr → Expr
  | .identifier name => .identifier (name.mapTokens f)
  | .integer token value => .integer (f token) value
  | .boolean token value => .boolean (f token) value
  | .string token value => .string (f token) value
  | .array token elements => .array (f token) (mapTokensList f elements)
  | .hash token pairs => .hash (f token) (mapTokensPairs f pairs)
  | .unary token op right => .unary (f token) op (right.mapTokens f)
  | .binary token left op right => .binary (f token) (left.mapTokens f) op (right.mapTokens f)
  | .conditional token condition consequence none =>
    .conditional (f token) (condition.mapTokens f) (consequence.mapTokens f) none
  | .conditional token condition consequence (some alternative) =>
    .conditional (f token) (condition.mapTokens f) (consequence.mapTokens f)
      (some (alternative.mapTokens f))
  | .function literal => .function (literal.mapTokens f)
  | .call token callee arguments =>
    .call (f token) (callee.mapTokens f) (mapTokensList f arguments)
  | .index token left index => .index (f token) (left.mapTokens f) (index.mapTokens f)
  | .missing token => .missing (f token)

def mapTokensList (f : Token → Token) : List Expr → List Expr
  | [] => []
  | e :: es => e.mapTokens f :: mapTokensList f es

def mapTokensPairs (f : Token → Token) : List (Expr × Expr) → List (Expr × Expr)
  | [] => []
  | (key, value) :: pairs => (key.mapTokens f, value.mapTokens f) :: mapTokensPairs f pairs

def FunctionLiteral.mapTokens (f : Token → Token) : FunctionLiteral → FunctionLiteral
  | ⟨token, parameters, body⟩ =>
    ⟨f token, parameters.map (Identifier.mapTokens f), body.mapTokens f⟩

def Block.mapTokens (f : Token → Token) : Block → Block
  | ⟨token, statements⟩ => ⟨f token, mapTokensBody f statements⟩

def mapTokensBody (f : Token → Token) : List Stmt → List Stmt
  | [] => []
  | s :: ss => s.mapTokens f :: mapTokensBody f ss

/-- The statement with other tokens. -/
def Stmt.mapTokens (f : Token → Token) : Stmt → Stmt
  | .letBinding token name value => .letBinding (f token) (name.mapTokens f) (value.mapTokens f)
  | .returning token value => .returning (f token) (value.mapTokens f)
  | .expression token expr => .expression (f token) (expr.mapTokens f)
  | .block body => .block (body.mapTokens f)
  | .missing token => .missing (f token)

end

variable {f : Token → Token}

theorem mapTokensList_eq_map (es : List Expr) : mapTokensList f es = es.map (Expr.mapTokens f) := by
  induction es with
  | nil => rfl
  | cons e es ih => rw [mapTokensList, ih, List.map_cons]

theorem mapTokensPairs_eq_map (pairs : List (Expr × Expr)) :
    mapTokensPairs f pairs = pairs.map (Prod.map (Expr.mapTokens f) (Expr.mapTokens f)) := by
  induction pairs with
  | nil => rfl
  | cons pair pairs ih => rw [mapTokensPairs, ih, List.map_cons, Prod.map]

theorem mapTokensBody_eq_map (ss : List Stmt) : mapTokensBody f ss = ss.map (Stmt.mapTokens f) := by
  induction ss with
  | nil => rfl
  | cons s ss ih => rw [mapTokensBody, ih, List.map_cons]

/-- The token of an expression is changed like all the others. -/
theorem Expr.token_mapTokens (e : Expr) : (e.mapTokens f).token = f e.token := by
  cases e with
  | conditional _ _ _ alternative => cases alternative <;> rfl
  | function literal =>
    cases literal
    rfl
  | _ => rfl

/-- There are as many parameters. -/
theorem FunctionLiteral.arity_mapTokens (literal : FunctionLiteral) :
    (literal.mapTokens f).arity = literal.arity := by
  cases literal
  exact List.length_map ..

/-! ## The same tokens, and one change after another -/

theorem Identifier.map_mapTokens_id (is : List Identifier) :
    is.map (Identifier.mapTokens id) = is := List.map_id is

mutual

theorem Expr.mapTokens_id : ∀ e : Expr, e.mapTokens id = e
  | .identifier _ | .integer _ _ | .boolean _ _ | .string _ _ | .missing _ => rfl
  | .array _ elements => congrArg (Expr.array _) (mapTokensList_id elements)
  | .hash _ pairs => congrArg (Expr.hash _) (mapTokensPairs_id pairs)
  | .unary _ _ right => congrArg (Expr.unary _ _) right.mapTokens_id
  | .binary _ left _ right | .index _ left right => by
    simp only [Expr.mapTokens, left.mapTokens_id, right.mapTokens_id, id]
  | .conditional _ condition consequence none => by
    simp only [Expr.mapTokens, condition.mapTokens_id, consequence.mapTokens_id, id]
  | .conditional _ condition consequence (some alternative) => by
    simp only [Expr.mapTokens, condition.mapTokens_id, consequence.mapTokens_id,
      alternative.mapTokens_id, id]
  | .function literal => congrArg Expr.function literal.mapTokens_id
  | .call _ callee arguments => by
    simp only [Expr.mapTokens, callee.mapTokens_id, mapTokensList_id arguments, id]

theorem mapTokensList_id : ∀ es : List Expr, mapTokensList id es = es
  | [] => rfl
  | e :: es => by simp only [mapTokensList, e.mapTokens_id, mapTokensList_id es]

theorem mapTokensPairs_id : ∀ pairs : List (Expr × Expr), mapTokensPairs id pairs = pairs
  | [] => rfl
  | (key, value) :: pairs => by
    simp only [mapTokensPairs, key.mapTokens_id, value.mapTokens_id, mapTokensPairs_id pairs]

theorem FunctionLiteral.mapTokens_id : ∀ literal : FunctionLiteral, literal.mapTokens id = literal
  | ⟨_, parameters, body⟩ => by
    simp only [FunctionLiteral.mapTokens, Identifier.map_mapTokens_id, body.mapTokens_id, id]

theorem Block.mapTokens_id : ∀ b : Block, b.mapTokens id = b
  | ⟨_, statements⟩ => congrArg (Block.mk _) (mapTokensBody_id statements)

theorem mapTokensBody_id : ∀ ss : List Stmt, mapTokensBody id ss = ss
  | [] => rfl
  | s :: ss => by simp only [mapTokensBody, s.mapTokens_id, mapTokensBody_id ss]

/-- With the tokens that it has, a tree is what it is. -/
theorem Stmt.mapTokens_id : ∀ s : Stmt, s.mapTokens id = s
  | .letBinding _ _ value => congrArg (Stmt.letBinding _ _) value.mapTokens_id
  | .returning _ value => congrArg (Stmt.returning _) value.mapTokens_id
  | .expression _ expr => congrArg (Stmt.expression _) expr.mapTokens_id
  | .block body => congrArg Stmt.block body.mapTokens_id
  | .missing _ => rfl

end

section Twice

variable (f g : Token → Token)

theorem Identifier.mapTokens_mapTokens (i : Identifier) :
    (i.mapTokens f).mapTokens g = i.mapTokens (g ∘ f) := rfl

mutual

theorem Expr.mapTokens_mapTokens :
    ∀ e : Expr, (e.mapTokens f).mapTokens g = e.mapTokens (g ∘ f)
  | .identifier _ | .integer _ _ | .boolean _ _ | .string _ _ | .missing _ => rfl
  | .array _ elements => congrArg (Expr.array _) (mapTokensList_mapTokensList elements)
  | .hash _ pairs => congrArg (Expr.hash _) (mapTokensPairs_mapTokensPairs pairs)
  | .unary _ _ right => congrArg (Expr.unary _ _) right.mapTokens_mapTokens
  | .binary _ left _ right | .index _ left right => by
    simp only [Expr.mapTokens, left.mapTokens_mapTokens, right.mapTokens_mapTokens,
      Function.comp_apply]
  | .conditional _ condition consequence none => by
    simp only [Expr.mapTokens, condition.mapTokens_mapTokens, consequence.mapTokens_mapTokens,
      Function.comp_apply]
  | .conditional _ condition consequence (some alternative) => by
    simp only [Expr.mapTokens, condition.mapTokens_mapTokens, consequence.mapTokens_mapTokens,
      alternative.mapTokens_mapTokens, Function.comp_apply]
  | .function literal => congrArg Expr.function literal.mapTokens_mapTokens
  | .call _ callee arguments => by
    simp only [Expr.mapTokens, callee.mapTokens_mapTokens, mapTokensList_mapTokensList arguments,
      Function.comp_apply]

theorem mapTokensList_mapTokensList :
    ∀ es : List Expr, mapTokensList g (mapTokensList f es) = mapTokensList (g ∘ f) es
  | [] => rfl
  | e :: es => by simp only [mapTokensList, e.mapTokens_mapTokens, mapTokensList_mapTokensList es]

theorem mapTokensPairs_mapTokensPairs : ∀ pairs : List (Expr × Expr),
    mapTokensPairs g (mapTokensPairs f pairs) = mapTokensPairs (g ∘ f) pairs
  | [] => rfl
  | (key, value) :: pairs => by
    simp only [mapTokensPairs, key.mapTokens_mapTokens, value.mapTokens_mapTokens,
      mapTokensPairs_mapTokensPairs pairs]

theorem FunctionLiteral.mapTokens_mapTokens : ∀ literal : FunctionLiteral,
    (literal.mapTokens f).mapTokens g = literal.mapTokens (g ∘ f)
  | ⟨_, parameters, body⟩ => by
    simp only [FunctionLiteral.mapTokens, List.map_map, body.mapTokens_mapTokens,
      Function.comp_def, Identifier.mapTokens_mapTokens]

theorem Block.mapTokens_mapTokens :
    ∀ b : Block, (b.mapTokens f).mapTokens g = b.mapTokens (g ∘ f)
  | ⟨_, statements⟩ => congrArg (Block.mk _) (mapTokensBody_mapTokensBody statements)

theorem mapTokensBody_mapTokensBody :
    ∀ ss : List Stmt, mapTokensBody g (mapTokensBody f ss) = mapTokensBody (g ∘ f) ss
  | [] => rfl
  | s :: ss => by simp only [mapTokensBody, s.mapTokens_mapTokens, mapTokensBody_mapTokensBody ss]

/-- Two changes of the tokens, one after the other, are one change. -/
theorem Stmt.mapTokens_mapTokens :
    ∀ s : Stmt, (s.mapTokens f).mapTokens g = s.mapTokens (g ∘ f)
  | .letBinding _ _ value => congrArg (Stmt.letBinding _ _) value.mapTokens_mapTokens
  | .returning _ value => congrArg (Stmt.returning _) value.mapTokens_mapTokens
  | .expression _ expr => congrArg (Stmt.expression _) expr.mapTokens_mapTokens
  | .block body => congrArg Stmt.block body.mapTokens_mapTokens
  | .missing _ => rfl

end

end Twice

/-! ## The text of a tree -/

section Text

variable (f : Token → Token)

theorem Identifier.render_mapTokens (i : Identifier) : (i.mapTokens f).render = i.render := rfl

mutual

/-- An expression has the text that it has with other tokens. -/
theorem Expr.render_mapTokens : ∀ e : Expr, (e.mapTokens f).render = e.render
  | .identifier _ | .integer _ _ | .boolean _ _ | .string _ _ | .missing _ => rfl
  | .array _ elements => congrArg (fun t => "[" ++ t ++ "]") (renderList_mapTokensList elements)
  | .hash _ pairs => congrArg (fun t => "\x7b" ++ t ++ "\x7d") (renderPairs_mapTokensPairs pairs)
  | .unary _ op right => congrArg (fun t => "(" ++ op.symbol ++ t ++ ")") right.render_mapTokens
  | .binary _ left op right | .index _ left right => by
    simp only [Expr.mapTokens, Expr.render, left.render_mapTokens, right.render_mapTokens]
  | .conditional _ condition consequence none => by
    simp only [Expr.mapTokens, Expr.render, condition.render_mapTokens,
      consequence.render_mapTokens]
  | .conditional _ condition consequence (some alternative) => by
    simp only [Expr.mapTokens, Expr.render, condition.render_mapTokens,
      consequence.render_mapTokens, alternative.render_mapTokens]
  | .function literal => literal.render_mapTokens
  | .call _ callee arguments => by
    simp only [Expr.mapTokens, Expr.render, callee.render_mapTokens,
      renderList_mapTokensList arguments]

theorem renderList_mapTokensList :
    ∀ es : List Expr, renderList (mapTokensList f es) = renderList es
  | [] => rfl
  | [e] => e.render_mapTokens
  | e :: e' :: es => by
    have hrest := renderList_mapTokensList (e' :: es)
    show (e.mapTokens f).render ++ ", " ++ renderList (mapTokensList f (e' :: es)) = _
    rw [e.render_mapTokens, hrest]
    rfl

theorem renderPairs_mapTokensPairs : ∀ pairs : List (Expr × Expr),
    renderPairs (mapTokensPairs f pairs) = renderPairs pairs
  | [] => rfl
  | [(key, value)] => by
    simp only [mapTokensPairs, renderPairs, key.render_mapTokens, value.render_mapTokens]
  | (key, value) :: pair :: pairs => by
    have hrest := renderPairs_mapTokensPairs (pair :: pairs)
    show (key.mapTokens f).render ++ ": " ++ (value.mapTokens f).render ++ ", " ++
      renderPairs (mapTokensPairs f (pair :: pairs)) = _
    rw [key.render_mapTokens, value.render_mapTokens, hrest]
    rfl

theorem FunctionLiteral.render_mapTokens : ∀ literal : FunctionLiteral,
    (literal.mapTokens f).render = literal.render
  | ⟨_, parameters, body⟩ => by
    simp only [FunctionLiteral.mapTokens, FunctionLiteral.render, List.map_map,
      body.render_mapTokens, Function.comp_def, Identifier.render_mapTokens]

/-- The token that a block keeps is not printed. -/
theorem Block.render_mapTokens : ∀ b : Block, (b.mapTokens f).render = b.render
  | ⟨_, statements⟩ =>
    congrArg (fun t => "\x7b" ++ t ++ " \x7d") (renderBody_mapTokensBody statements)

theorem renderBody_mapTokensBody :
    ∀ ss : List Stmt, renderBody (mapTokensBody f ss) = renderBody ss
  | [] => rfl
  | s :: ss => by
    simp only [mapTokensBody, renderBody, s.render_mapTokens, renderBody_mapTokensBody ss]

/-- A statement has the text that it has with other tokens. -/
theorem Stmt.render_mapTokens : ∀ s : Stmt, (s.mapTokens f).render = s.render
  | .letBinding _ name value =>
    congrArg (fun t => "let " ++ name.render ++ " = " ++ t ++ ";") value.render_mapTokens
  | .returning _ value => congrArg (fun t => "return " ++ t ++ ";") value.render_mapTokens
  | .expression _ e => congrArg (· ++ ";") e.render_mapTokens
  | .block body => body.render_mapTokens
  | .missing _ => rfl

end

end Text

/-! ## Trees without their tokens -/

/-- The name with a token that says nothing. -/
abbrev Identifier.bare : Identifier → Identifier := mapTokens fun _ => .endOfInput

/-- The expression with tokens that say nothing. -/
abbrev Expr.bare : Expr → Expr := mapTokens fun _ => .endOfInput

abbrev bareList : List Expr → List Expr := mapTokensList fun _ => .endOfInput

abbrev barePairs : List (Expr × Expr) → List (Expr × Expr) := mapTokensPairs fun _ => .endOfInput

abbrev FunctionLiteral.bare : FunctionLiteral → FunctionLiteral := mapTokens fun _ => .endOfInput

abbrev Block.bare : Block → Block := mapTokens fun _ => .endOfInput

abbrev bareBody : List Stmt → List Stmt := mapTokensBody fun _ => .endOfInput

/-- The statement with tokens that say nothing. -/
abbrev Stmt.bare : Stmt → Stmt := mapTokens fun _ => .endOfInput

end Ember
