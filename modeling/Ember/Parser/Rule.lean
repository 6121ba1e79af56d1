import Ember.Diagnostic

/-!
# Rules of the grammar

A rule reads tokens from the front of its input. It ends in one of two ways, and in both the input
that is left comes with the answer: with what it read, or with a diagnostic. A rule that fails
leaves the token it reports at the front of the input.

## Termination

Reading never goes past the end: there the input stays as it is and answers every look with its
ending. `Rule.whileNext` runs a rule over and over and is bounded by the number of tokens there are,
which is enough for every rule that takes a token each time.
-/

namespace Ember

/-- The tokens still to be read, none of them the end of input, and the token that stands there. -/
structure Input where
  pending : List Token
  ending : Token

namespace Input

/-- The tokens of a list up to its first end of input. What follows it is never read. -/
def ofList (l : TokenList) : Input :=
  ⟨l.tokens.takeWhile (·.kind ≠ .eof), (l.tokens.find? (·.kind = .eof)).getD .endOfInput⟩

/-- The token at the front. -/
def head (i : Input) : Token := i.pending.headD i.ending

/-- The input without the token at the front. -/
def tail (i : Input) : Input := ⟨i.pending.tail, i.ending⟩

@[simp] theorem head_cons (t : Token) (ts : List Token) (e : Token) :
    head ⟨t :: ts, e⟩ = t := rfl

@[simp] theorem head_nil (e : Token) : head ⟨[], e⟩ = e := rfl

end Input

/-- A way to read something from the front of the input. -/
abbrev Rule := EStateM Diagnostic Input

namespace Rule

/-- The token at the front, which stays there. -/
def peek : Rule Token := fun i => .ok i.head i

/-- The kind of the token at the front. -/
def peekKind : Rule Kind := fun i => .ok i.head.kind i

/-- Takes the token at the front. -/
def advance : Rule Token := fun i => .ok i.head i.tail

/-- Reports the token at the front. -/
def fail {α : Type} (reason : Diagnostic.Reason) : Rule α := fun i => .error ⟨reason, i.head⟩ i

/-- Takes the token at the front, which must be of the given kind. -/
def expect (kind : Kind) : Rule Token := do
  if (← peekKind) = kind then advance else fail (.unexpectedToken kind)

/-- Runs a rule at most `n` times, as long as the token before each run is accepted. -/
def atMost {α : Type} (accepts : Kind → Bool) (rule : Rule α) : Nat → Rule (List α)
  | 0 => pure []
  | n + 1 => do
    if accepts (← peekKind) then
      let a ← rule
      let as ← atMost accepts rule n
      pure (a :: as)
    else
      pure []

/-- Runs a rule as long as the token before each run is accepted. -/
def whileNext {α : Type} (accepts : Kind → Bool) (rule : Rule α) : Rule (List α) := fun i =>
  atMost accepts rule (i.pending.length + 1) i

end Rule

end Ember
