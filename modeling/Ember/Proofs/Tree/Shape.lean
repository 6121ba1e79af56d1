import Ember.Proofs.Canonical.Pieces

/-!
# The shape of a tree

What may stand in a tree at any depth: which names, which placeholders, and whether a block may be a
statement of its own. A tree in which nothing is missing is `Complete`; so is every tree that can be
written (`Stmt.Writable.complete`).
-/

namespace Ember

/-- What may stand in a tree. -/
structure Shape where
  name : Identifier → Prop
  placeholder : Placeholder → Prop
  /-- Whether a block may stand among statements. -/
  block : Prop

mutual

/-- Nothing stands in the expression that the shape does not allow. -/
def Expr.HasShape (k : Shape) : Expr → Prop
  | .identifier name => k.name name
  | .integer _ _ | .boolean _ _ | .string _ _ => True
  | .array _ elements => ListHasShape k elements
  | .hash _ pairs => PairsHaveShape k pairs
  | .unary _ _ right => right.HasShape k
  | .binary _ left _ right => left.HasShape k ∧ right.HasShape k
  | .conditional _ condition consequence none => condition.HasShape k ∧ consequence.HasShape k
  | .conditional _ condition consequence (some alternative) =>
    condition.HasShape k ∧ consequence.HasShape k ∧ alternative.HasShape k
  | .function literal => literal.HasShape k
  | .call _ callee arguments => callee.HasShape k ∧ ListHasShape k arguments
  | .index _ left index => left.HasShape k ∧ index.HasShape k
  | .missing _ => k.placeholder .expression

def ListHasShape (k : Shape) : List Expr → Prop
  | [] => True
  | e :: es => e.HasShape k ∧ ListHasShape k es

def PairsHaveShape (k : Shape) : List (Expr × Expr) → Prop
  | [] => True
  | (key, value) :: pairs => key.HasShape k ∧ value.HasShape k ∧ PairsHaveShape k pairs

def FunctionLiteral.HasShape (k : Shape) : FunctionLiteral → Prop
  | ⟨_, parameters, body⟩ => (∀ i ∈ parameters, k.name i) ∧ body.HasShape k

def Block.HasShape (k : Shape) : Block → Prop
  | ⟨_, statements⟩ => BodyHasShape k statements

def BodyHasShape (k : Shape) : List Stmt → Prop
  | [] => True
  | s :: ss => s.HasShape k ∧ BodyHasShape k ss

/-- Nothing stands in the statement that the shape does not allow. -/
def Stmt.HasShape (k : Shape) : Stmt → Prop
  | .letBinding _ name value => k.name name ∧ value.HasShape k
  | .returning _ value => value.HasShape k
  | .expression _ expr => expr.HasShape k
  | .block body => k.block ∧ body.HasShape k
  | .missing _ => k.placeholder .statement

end

theorem bodyHasShape_iff {k : Shape} {ss : List Stmt} :
    BodyHasShape k ss ↔ ∀ s ∈ ss, s.HasShape k := by
  induction ss with
  | nil => simp [BodyHasShape]
  | cons s ss ih => rw [BodyHasShape, ih, List.forall_mem_cons]

/-! ## Any tree -/

/-- Everything may stand in the tree. -/
def Shape.any : Shape := ⟨fun _ => True, fun _ => True, True⟩

mutual

/-- The shape that allows everything asks for nothing. -/
theorem Expr.hasShape_any : ∀ e : Expr, e.HasShape .any
  | .identifier _ | .integer _ _ | .boolean _ _ | .string _ _ | .missing _ => trivial
  | .array _ elements => listHasShape_any elements
  | .hash _ pairs => pairsHaveShape_any pairs
  | .unary _ _ right => right.hasShape_any
  | .binary _ left _ right => ⟨left.hasShape_any, right.hasShape_any⟩
  | .conditional _ condition consequence none =>
    ⟨condition.hasShape_any, consequence.hasShape_any⟩
  | .conditional _ condition consequence (some alternative) =>
    ⟨condition.hasShape_any, consequence.hasShape_any, alternative.hasShape_any⟩
  | .function literal => literal.hasShape_any
  | .call _ callee arguments => ⟨callee.hasShape_any, listHasShape_any arguments⟩
  | .index _ left index => ⟨left.hasShape_any, index.hasShape_any⟩

theorem listHasShape_any : ∀ es : List Expr, ListHasShape .any es
  | [] => trivial
  | e :: es => ⟨e.hasShape_any, listHasShape_any es⟩

theorem pairsHaveShape_any : ∀ pairs : List (Expr × Expr), PairsHaveShape .any pairs
  | [] => trivial
  | (key, value) :: pairs => ⟨key.hasShape_any, value.hasShape_any, pairsHaveShape_any pairs⟩

theorem FunctionLiteral.hasShape_any : ∀ f : FunctionLiteral, f.HasShape .any
  | ⟨_, _, body⟩ => ⟨fun _ _ => trivial, body.hasShape_any⟩

theorem Block.hasShape_any : ∀ b : Block, b.HasShape .any
  | ⟨_, statements⟩ => bodyHasShape_any statements

theorem bodyHasShape_any : ∀ ss : List Stmt, BodyHasShape .any ss
  | [] => trivial
  | s :: ss => ⟨s.hasShape_any, bodyHasShape_any ss⟩

/-- Every statement has the shape in which everything may stand. -/
theorem Stmt.hasShape_any : ∀ s : Stmt, s.HasShape .any
  | .letBinding _ _ value => ⟨trivial, value.hasShape_any⟩
  | .returning _ value => value.hasShape_any
  | .expression _ expr => expr.hasShape_any
  | .block body => ⟨trivial, body.hasShape_any⟩
  | .missing _ => trivial

end

/-! ## Complete trees -/

/-- No placeholder of any kind, and no block among statements. -/
def Shape.complete : Shape := ⟨fun i => i.isMissing = false, fun _ => False, False⟩

/-- Nothing is missing in the statement, at any depth, and no block is a statement of its own. -/
abbrev Stmt.Complete (s : Stmt) : Prop := s.HasShape .complete

/-- Nothing is missing in the literal, neither among its parameters nor in its body. -/
abbrev FunctionLiteral.Complete (f : FunctionLiteral) : Prop := f.HasShape .complete

/-- A word is not empty. -/
theorem Identifier.Writable.complete {i : Identifier} (h : i.Writable) : i.isMissing = false := by
  obtain ⟨⟨c, cs, hname, -⟩, -⟩ := h
  unfold isMissing
  rw [← Bool.not_eq_true, String.isEmpty_iff]
  intro hempty
  rw [hempty] at hname
  cases hname

mutual

/-- A tree that can be written has no placeholder in it and no block as a statement. -/
theorem Expr.Writable.complete : ∀ {e : Expr}, e.Writable → e.HasShape .complete
  | .identifier _, h => Identifier.Writable.complete h
  | .integer _ _, _ | .boolean _ _, _ | .string _ _, _ => trivial
  | .array _ _, h => WritableList.complete h
  | .hash _ _, h => WritablePairs.complete h
  | .unary _ _ right, h => Expr.Writable.complete (e := right) h
  | .binary _ _ _ _, h => ⟨h.1.complete, h.2.complete⟩
  | .conditional _ _ _ none, h => ⟨h.1.complete, h.2.complete⟩
  | .conditional _ _ _ (some _), h => ⟨h.1.complete, h.2.1.complete, h.2.2.complete⟩
  | .function literal, h => FunctionLiteral.Writable.complete (f := literal) h
  | .call _ _ _, h => ⟨h.1.complete, WritableList.complete h.2⟩
  | .index _ _ _, h => ⟨h.1.complete, h.2.complete⟩

theorem WritableList.complete : ∀ {es : List Expr}, WritableList es → ListHasShape .complete es
  | [], _ => trivial
  | _ :: _, h => ⟨h.1.complete, WritableList.complete h.2⟩

theorem WritablePairs.complete : ∀ {pairs : List (Expr × Expr)}, WritablePairs pairs →
    PairsHaveShape .complete pairs
  | [], _ => trivial
  | (_, _) :: _, h => ⟨h.1.complete, h.2.1.complete, WritablePairs.complete h.2.2⟩

theorem FunctionLiteral.Writable.complete : ∀ {f : FunctionLiteral}, f.Writable →
    f.HasShape .complete
  | ⟨_, _, _⟩, h => ⟨fun i hi => (h.1 i hi).complete, h.2.complete⟩

theorem Block.Writable.complete : ∀ {b : Block}, b.Writable → b.HasShape .complete
  | ⟨_, _⟩, h => WritableBody.complete h

theorem WritableBody.complete : ∀ {ss : List Stmt}, WritableBody ss → BodyHasShape .complete ss
  | [], _ => trivial
  | _ :: _, h => ⟨h.1.complete, WritableBody.complete h.2⟩

/-- What can be written is complete. -/
theorem Stmt.Writable.complete : ∀ {s : Stmt}, s.Writable → s.Complete
  | .letBinding _ _ _, h => ⟨h.1.complete, h.2.complete⟩
  | .returning _ value, h => Expr.Writable.complete (e := value) h
  | .expression _ e, h => Expr.Writable.complete (e := e) h

end

end Ember
