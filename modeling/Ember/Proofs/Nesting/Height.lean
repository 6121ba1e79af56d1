import Ember.Proofs.Grammar.Phrase
import Mathlib.Tactic.Ring

/-!
# The height of a tree and the levels of its phrase

The limit on nesting is meant to keep trees shallow. The levels that reading a phrase opens do not
bound the height of its tree, though: an operand gives its levels back when it ends, and an operator
behind it still puts one more node on top of it. `Expr.overhang` counts how often that happens on
one way through the tree.

Two bounds hold for every phrase (`Fits`). The height is at most the levels and the overhang
together, and it is at most the sum of the numbers up to the number of levels: with `n` levels open,
`n` operators can be put on top of an operand that had all but one of them for itself.
-/

namespace Ember

/-! ## Height and overhang -/

mutual

/-- The number of expressions on the longest way from the expression down to a leaf. -/
def Expr.height : Expr → Nat
  | .array _ elements => listHeight elements + 1
  | .hash _ pairs => pairHeight pairs + 1
  | .unary _ _ right => right.height + 1
  | .binary _ left _ right => max left.height right.height + 1
  | .conditional _ condition consequence none => max condition.height consequence.height + 1
  | .conditional _ condition consequence (some alternative) =>
    max condition.height (max consequence.height alternative.height) + 1
  | .function literal => literal.height + 1
  | .call _ callee arguments => max callee.height (listHeight arguments) + 1
  | .index _ left index => max left.height index.height + 1
  | .identifier _ | .integer _ _ | .boolean _ _ | .string _ _ | .missing _ => 1

def listHeight : List Expr → Nat
  | [] => 0
  | e :: es => max e.height (listHeight es)

def pairHeight : List (Expr × Expr) → Nat
  | [] => 0
  | (key, value) :: pairs => max (max key.height value.height) (pairHeight pairs)

def FunctionLiteral.height : FunctionLiteral → Nat
  | ⟨_, _, body⟩ => body.height

def Block.height : Block → Nat
  | ⟨_, statements⟩ => bodyHeight statements

def bodyHeight : List Stmt → Nat
  | [] => 0
  | s :: ss => max s.height (bodyHeight ss)

/-- The number of expressions on the longest way from the statement down to a leaf. -/
def Stmt.height : Stmt → Nat
  | .letBinding _ _ value => value.height
  | .returning _ value => value.height
  | .expression _ expr => expr.height
  | .block body => body.height
  | .missing _ => 0

end

/-- The overhang of an operator's left operand; an operand without parts does not add to it. -/
def leftOverhang (height overhang : Nat) : Nat := if height ≤ 1 then 0 else overhang + 1

mutual

/--
How often a way from the expression down to a leaf goes from an operator, a call or an element
access to a left operand that has parts.
-/
def Expr.overhang : Expr → Nat
  | .array _ elements => listOverhang elements
  | .hash _ pairs => pairOverhang pairs
  | .unary _ _ right => right.overhang
  | .binary _ left _ right => max (leftOverhang left.height left.overhang) right.overhang
  | .conditional _ condition consequence none => max condition.overhang consequence.overhang
  | .conditional _ condition consequence (some alternative) =>
    max condition.overhang (max consequence.overhang alternative.overhang)
  | .function literal => literal.overhang
  | .call _ callee arguments =>
    max (leftOverhang callee.height callee.overhang) (listOverhang arguments)
  | .index _ left index => max (leftOverhang left.height left.overhang) index.overhang
  | .identifier _ | .integer _ _ | .boolean _ _ | .string _ _ | .missing _ => 0

def listOverhang : List Expr → Nat
  | [] => 0
  | e :: es => max e.overhang (listOverhang es)

def pairOverhang : List (Expr × Expr) → Nat
  | [] => 0
  | (key, value) :: pairs => max (max key.overhang value.overhang) (pairOverhang pairs)

def FunctionLiteral.overhang : FunctionLiteral → Nat
  | ⟨_, _, body⟩ => body.overhang

def Block.overhang : Block → Nat
  | ⟨_, statements⟩ => bodyOverhang statements

def bodyOverhang : List Stmt → Nat
  | [] => 0
  | s :: ss => max s.overhang (bodyOverhang ss)

/-- How often a way through the statement goes to a left operand that has parts. -/
def Stmt.overhang : Stmt → Nat
  | .letBinding _ _ value => value.overhang
  | .returning _ value => value.overhang
  | .expression _ expr => expr.overhang
  | .block body => body.overhang
  | .missing _ => 0

end

namespace Phrase

/-! ## Triangular numbers -/

/-- The sum of the numbers up to `n`. -/
def triangle (n : Nat) : Nat := n * (n + 1) / 2

/-- The next number is added to the sum. -/
theorem triangle_succ (n : Nat) : triangle (n + 1) = triangle n + (n + 1) := by
  unfold triangle
  have h : (n + 1) * (n + 1 + 1) = n * (n + 1) + 2 * (n + 1) := by ring
  omega

theorem triangle_le_triangle {n m : Nat} (h : n ≤ m) : triangle n ≤ triangle m :=
  Nat.div_le_div_right (Nat.mul_le_mul h (Nat.succ_le_succ h))

/-! ## The bounds, part by part -/

/-- The height of a part that `n` levels are opened for. -/
structure Fits (n height overhang : Nat) : Prop where
  le_triangle : height ≤ triangle n
  le_add : height ≤ n + overhang

/-- The height of an operation with `k` operators, below the level that it opens for itself. -/
structure FitsOperation (k n height overhang : Nat) : Prop where
  le_triangle : height ≤ triangle n + 1 + k
  le_add : height ≤ n + 1 + overhang

variable {k n m h h' o o' : Nat}

theorem Fits.zero (n : Nat) : Fits n 0 0 := ⟨Nat.zero_le _, Nat.zero_le _⟩

/-- More levels or a greater overhang allow as much. -/
theorem Fits.mono (hf : Fits n h o) (hnm : n ≤ m) (hoo : o ≤ o') : Fits m h o' :=
  ⟨Nat.le_trans hf.le_triangle (triangle_le_triangle hnm), Nat.le_trans hf.le_add (by omega)⟩

/-- Parts side by side. -/
theorem Fits.max (hf : Fits n h o) (hf' : Fits m h' o') :
    Fits (max n m) (max h h') (max o o') := by
  have hl := hf.mono (Nat.le_max_left n m) (Nat.le_max_left o o')
  have hr := hf'.mono (Nat.le_max_right n m) (Nat.le_max_right o o')
  exact ⟨Nat.max_le.mpr ⟨hl.le_triangle, hr.le_triangle⟩, Nat.max_le.mpr ⟨hl.le_add, hr.le_add⟩⟩

/-- A node on top of its parts. -/
theorem Fits.node (hf : Fits n h o) : FitsOperation 0 n (h + 1) o := by
  obtain ⟨htriangle, hadd⟩ := hf
  constructor <;> omega

/-- Parentheses are no node. -/
theorem Fits.grouped (hf : Fits n h o) : FitsOperation 0 n h o := by
  obtain ⟨htriangle, hadd⟩ := hf
  constructor <;> omega

/-- The level of an operation makes up for all the operators in it. -/
theorem FitsOperation.nested (hf : FitsOperation k n h o) (hk : k ≤ n) : Fits (n + 1) h o := by
  obtain ⟨htriangle, hadd⟩ := hf
  constructor
  · rw [triangle_succ]
    omega
  · exact hadd

/-- One operator more, on top of the operation so far. -/
theorem FitsOperation.grow (hf : FitsOperation k n h o) (hf' : Fits m h' o') :
    FitsOperation (k + 1) (Max.max n (k + 1 + m)) (Max.max h h' + 1)
      (Max.max (leftOverhang h o) o') := by
  have hn := triangle_le_triangle (Nat.le_max_left n (k + 1 + m))
  have hm := triangle_le_triangle (Nat.le_trans (Nat.le_add_left m (k + 1))
    (Nat.le_max_right n (k + 1 + m)))
  obtain ⟨htriangle, hadd⟩ := hf
  obtain ⟨htriangle', hadd'⟩ := hf'
  constructor
  · omega
  · unfold leftOverhang
    split <;> omega

/-! ## The induction -/

mutual

/-- The level that is opened for an expression pays for its operation. -/
theorem Nested.fits {s : Stratum} {ts us : List Token} {e : Expr} {n : Nat} :
    Nested s ts e n us → Fits n e.height e.overhang
  | .mk h => h.fits.nested h.le

/--
Each operator at the left edge stands on the operation in front of it, and its right operand has the
levels that are left to it.
-/
theorem Operation.fits {s : Stratum} {ts us : List Token} {e : Expr} {k n : Nat} :
    Operation s ts e k n us → FitsOperation k n e.height e.overhang
  | .atom h => h.fits
  | .tighter _ h => h.fits
  | .binary hleft _ _ hright => hleft.fits.grow hright.fits
  | .unary _ hright => hright.fits.node
  | .call hcallee _ harguments => hcallee.fits.grow harguments.fits
  | .index hleft _ hindex _ => hleft.fits.grow hindex.fits

/-- An atom is a node on top of its parts. -/
theorem Atom.fits {ts us : List Token} {e : Expr} {n : Nat} :
    Atom ts e n us → FitsOperation 0 n e.height e.overhang
  | .identifier _ | .integer _ _ | .string _ | .yes _ | .no _ => (Fits.zero 0).node
  | .grouped _ h _ => h.fits.grouped
  | .conditional _ _ hcondition _ hbody => (hcondition.fits.max hbody.fits).node
  | .alternative _ _ hcondition _ hbody _ hother =>
    (hcondition.fits.max (hbody.fits.max hother.fits)).node
  | .function _ _ _ hbody => hbody.fits.node
  | .array _ h => h.fits.node
  | .hash _ h => h.fits.node

theorem Items.fits {closing : Kind} {ts us : List Token} {es : List Expr} {n : Nat} :
    Items closing ts es n us → Fits n (listHeight es) (listOverhang es)
  | .none _ => .zero 0
  | .some h hmore => h.fits.max hmore.fits

theorem MoreItems.fits {closing : Kind} {ts us : List Token} {es : List Expr} {n : Nat} :
    MoreItems closing ts es n us → Fits n (listHeight es) (listOverhang es)
  | .close _ => .zero 0
  | .comma _ h hmore => h.fits.max hmore.fits

theorem Pairs.fits {ts us : List Token} {pairs : List (Expr × Expr)} {n : Nat} :
    Pairs ts pairs n us → Fits n (pairHeight pairs) (pairOverhang pairs)
  | .close _ => .zero 0
  | .last hkey _ hvalue _ => by
    have h := (hkey.fits.max hvalue.fits).max (.zero 0)
    rwa [Nat.max_zero] at h
  | .comma hkey _ hvalue _ hpairs => (hkey.fits.max hvalue.fits).max hpairs.fits

theorem Braced.fits {ts us : List Token} {b : Block} {n : Nat} :
    Braced ts b n us → Fits n b.height b.overhang
  | .mk _ h => h.fits

theorem Body.fits {ts us : List Token} {ss : List Stmt} {n : Nat} :
    Body ts ss n us → Fits n (bodyHeight ss) (bodyOverhang ss)
  | .close _ => .zero 0
  | .cons hs hss => hs.fits.max hss.fits

/-- A statement opens no level, and it is bounded as the expression in it is. -/
theorem Statement.fits {ts us : List Token} {s : Stmt} {n : Nat} :
    Statement ts s n us → Fits n s.height s.overhang
  | .letBinding _ _ _ h _ => h.fits
  | .returning _ h _ => h.fits
  | .ended h _ => h.fits
  | .bare h _ => h.fits

end

end Phrase

end Ember
