import Ember.Parser.Rule

/-!
# Recovery

After a statement has failed, the parser skips to where the next one starts: just past a semicolon,
or at a `let` or `return`, which only begin statements. Only places outside the braces that the
failed statement opened count, so that no statement of a function body is taken for one of the
program.
-/

namespace Ember.Recovery

/-- What a token adds to the number of open braces. -/
def braceChange (t : Token) : Int :=
  match t.kind with
  | .lBrace => 1
  | .rBrace => -1
  | _ => 0

/-- The number of braces opened, less the number closed. -/
def openBraces : List Token → Int
  | [] => 0
  | t :: ts => braceChange t + openBraces ts

theorem openBraces_append (ts us : List Token) :
    openBraces (ts ++ us) = openBraces ts + openBraces us := by
  induction ts with
  | nil => simp [openBraces]
  | cons t ts ih => simp only [List.cons_append, openBraces, ih, Int.add_assoc]

/-- Whether a token can only begin a statement. -/
def startsStatement (t : Token) : Bool := t.kind = .kwLet || t.kind = .kwReturn

/-- Skips to the next start of a statement, with so many braces open. -/
def skip : Int → List Token → List Token
  | _, [] => []
  | depth, t :: ts =>
    if depth ≤ 0 ∧ t.kind = .semicolon then ts
    else if depth ≤ 0 ∧ startsStatement t then t :: ts
    else skip (depth + braceChange t) ts

/--
Where parsing goes on after a statement that began at `start` has failed at the front of `stopped`.
-/
def resume (start stopped : Input) : Input :=
  let consumed := start.pending.take (start.pending.length - stopped.pending.length)
  { stopped with pending := skip (openBraces consumed) stopped.pending }

/-- Skipping only ever leaves tokens out at the front. -/
theorem skip_suffix (depth : Int) (ts : List Token) : skip depth ts <:+ ts := by
  induction ts generalizing depth with
  | nil => exact List.suffix_rfl
  | cons t ts ih =>
    unfold skip
    split
    · exact List.suffix_cons t ts
    split
    · exact List.suffix_rfl
    · exact (ih _).trans (List.suffix_cons t ts)

end Ember.Recovery
