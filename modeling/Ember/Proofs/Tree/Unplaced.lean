import Ember.Diagnostic
import Ember.Proofs.Tree.Tokens

/-!
# Trees without places

A token has a kind and a literal, and it stands somewhere. `unplaced` forgets where: two trees that
are equal without places differ in nothing but the spans and positions of their tokens. Such trees
are the same without tokens, too (`map_bare_of_unplaced`).
-/

namespace Ember

/-- The token as if it stood for no source text. -/
def Token.unplaced (t : Token) : Token := .synthetic t.kind t.literal

@[simp] theorem Token.kind_unplaced (t : Token) : t.unplaced.kind = t.kind := rfl

@[simp] theorem Token.literal_unplaced (t : Token) : t.unplaced.literal = t.literal := rfl

/-- The diagnostic without its place. -/
def Diagnostic.unplaced (d : Diagnostic) : Diagnostic := ⟨d.reason, d.found.unplaced⟩

/-- The name without its place. -/
abbrev Identifier.unplaced : Identifier → Identifier := mapTokens Token.unplaced

/-- The expression without the places of its tokens. -/
abbrev Expr.unplaced : Expr → Expr := mapTokens Token.unplaced

/-- The block without the places of its tokens. -/
abbrev Block.unplaced : Block → Block := mapTokens Token.unplaced

/-- The statement without the places of its tokens. -/
abbrev Stmt.unplaced : Stmt → Stmt := mapTokens Token.unplaced

/-- A tree without places has the same tree without tokens. -/
theorem Stmt.bare_unplaced (s : Stmt) : s.unplaced.bare = s.bare := s.mapTokens_mapTokens _ _

/-- Statements that differ in places only are the same without tokens. -/
theorem map_bare_of_unplaced {ss ts : List Stmt}
    (h : ss.map Stmt.unplaced = ts.map Stmt.unplaced) : ss.map Stmt.bare = ts.map Stmt.bare := by
  have hbare := congrArg (List.map Stmt.bare) h
  simpa only [List.map_map, Function.comp_def, Stmt.bare_unplaced] using hbare

end Ember
