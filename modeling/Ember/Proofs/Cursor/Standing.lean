import Ember.Proofs.Cursor.Grammar
import Ember.Proofs.Parser.Run

/-!
# Where a cursor stands

A cursor stands `On` an input when the tokens from its position up to the first end of input are the
pending ones, and `Before` it when it is on the token in front of them. A rule begins on what it
reads and ends before what it leaves. No cursor that stands before an input is on an end of input,
so the token behind its position is the head of the input and never one that lies behind an end.

A walk and a rule match (`Matches`) when the walk ends and both read the same, or both fail for the
same reason, each at the token in front of it. These can be different tokens only where both are
ends of input: the ending of the input need not be the one in the list.
-/

namespace Ember

namespace Cursor

/-- The cursor with so many levels open. -/
def atLevel (c : Cursor) (n : Nat) : Cursor := { c with nesting := n }

/-- The input that begins with the token at the position. -/
def ahead (c : Cursor) : Input := .ofList ⟨c.tokens.drop c.position⟩

/-- The index of the first end of input from the position on. -/
def stop (c : Cursor) : Nat := c.position + c.ahead.pending.length

@[simp] theorem current_atLevel (c : Cursor) (n : Nat) : (c.atLevel n).current = c.current := rfl

@[simp] theorem ahead_atLevel (c : Cursor) (n : Nat) : (c.atLevel n).ahead = c.ahead := rfl

@[simp] theorem advance_atLevel (c : Cursor) (n : Nat) :
    (c.atLevel n).advance = c.advance.atLevel n := by
  unfold advance
  rw [current_atLevel]
  split <;> rfl

/-! ## Moving on -/

variable {o c : Cursor} {i : Input}

theorem current_eq (c : Cursor) : c.current = (c.tokens.drop c.position).headD .endOfInput := by
  rw [List.headD_eq_head?_getD, List.head?_drop]
  rfl

theorem advance_of_eof (h : c.current.kind = .eof) : c.advance = c := if_pos h

theorem advance_of_ne (h : c.current.kind ≠ .eof) :
    c.advance = { c with position := c.position + 1 } := if_neg h

/-- The token that a cursor peeks at is the one that it is on once it moves. -/
theorem peek_eq (h : c.current.kind ≠ .eof) : c.peek = c.advance.current := by
  rw [advance_of_ne h]
  rfl

/-- Nothing lies ahead of an end of input, whatever stands behind it in the list. -/
theorem ahead_of_eof (h : c.current.kind = .eof) : c.ahead = ⟨[], c.current⟩ := by
  rw [current_eq] at h ⊢
  unfold ahead
  cases hd : c.tokens.drop c.position with
  | nil => rfl
  | cons t ts =>
    rw [hd] at h
    exact Input.ofList_eof h ts

/-- What lies ahead is the current token and what lies ahead of the next one. -/
theorem ahead_of_ne (h : c.current.kind ≠ .eof) :
    c.ahead = ⟨c.current :: c.advance.ahead.pending, c.advance.ahead.ending⟩ := by
  rw [advance_of_ne h]
  rw [current_eq] at h ⊢
  unfold ahead
  rw [← List.tail_drop]
  cases hd : c.tokens.drop c.position with
  | nil =>
    rw [hd] at h
    exact absurd rfl h
  | cons t ts =>
    rw [hd] at h
    exact @Input.ofList_append [t] ts (by simpa using h)

/-- A cursor is on the head of what lies ahead. -/
theorem head_ahead (c : Cursor) : c.ahead.head = c.current := by
  by_cases h : c.current.kind = .eof
  · rw [ahead_of_eof h]
    rfl
  · rw [ahead_of_ne h]
    rfl

/-- To move on is to take the head of what lies ahead. -/
theorem ahead_advance (c : Cursor) : c.advance.ahead = c.ahead.tail := by
  by_cases h : c.current.kind = .eof
  · rw [advance_of_eof h, ahead_of_eof h]
    rfl
  · rw [ahead_of_ne h]
    rfl

/-- Moving on does not move the first end of input. -/
theorem stop_advance (c : Cursor) : c.advance.stop = c.stop := by
  by_cases h : c.current.kind = .eof
  · rw [advance_of_eof h]
  · unfold stop
    rw [ahead_of_ne h, List.length_cons, advance_of_ne h]
    show c.position + 1 + _ = _
    omega

/-! ## Standings -/

/-- A cursor that may have come from `o`: in the same list, with the same end and level. -/
structure Follows (o c : Cursor) : Prop where
  tokens : c.tokens = o.tokens
  stop : c.stop = o.stop
  ending : c.ahead.ending = o.ahead.ending
  nesting : c.nesting = o.nesting

namespace Follows

theorem refl (c : Cursor) : Follows c c := ⟨rfl, rfl, rfl, rfl⟩

/-- A cursor that moves on is still one that may have come from the same cursor. -/
theorem advance (h : Follows o c) : Follows o c.advance := by
  refine ⟨?_, (stop_advance c).trans h.stop, ?_, ?_⟩
  · rw [← h.tokens]
    unfold Cursor.advance
    split <;> rfl
  · rw [ahead_advance]
    exact h.ending
  · rw [← h.nesting]
    unfold Cursor.advance
    split <;> rfl

theorem atLevel (h : Follows o c) (n : Nat) : Follows (o.atLevel n) (c.atLevel n) :=
  ⟨h.tokens, h.stop, h.ending, rfl⟩

end Follows

/-- The cursor is on the first token of the input. -/
structure On (o c : Cursor) (i : Input) : Prop where
  follows : Follows o c
  pending : c.ahead.pending = i.pending
  ended : i.Ended

/-- A cursor is on what lies ahead of it. -/
theorem On.refl (c : Cursor) : On c c c.ahead := ⟨.refl c, rfl, Input.ended_ofList _⟩

/-- The cursor is on the last token in front of the input. -/
structure Before (o c : Cursor) (i : Input) : Prop where
  kind_current : c.current.kind ≠ .eof
  advance : On o c.advance i

namespace On

/-- The tokens in front of both are the same, or both are ends of input. -/
theorem current_eq_or (h : On o c i) :
    c.current = i.head ∨ (c.current.kind = .eof ∧ i.head.kind = .eof) := by
  rw [← head_ahead]
  unfold Input.head
  rw [h.pending]
  cases i.pending with
  | nil => exact .inr ⟨Input.ended_ofList _, h.ended⟩
  | cons t ts => exact .inl rfl

/-- Even where the two ends of input are different tokens they are of one kind. -/
theorem kind_current (h : On o c i) : c.current.kind = i.head.kind := by
  rcases h.current_eq_or with heq | ⟨hc, hi⟩
  · rw [heq]
  · rw [hc, hi]

/-- Where something is pending, the cursor is not on an end of input. -/
theorem current_ne_eof (h : On o c i) (hne : i.pending ≠ []) : c.current.kind ≠ .eof := by
  intro heof
  rw [← h.pending, ahead_of_eof heof] at hne
  exact hne rfl

theorem current_eq (h : On o c i) (hk : i.head.kind ≠ .eof) : c.current = i.head :=
  h.current_eq_or.resolve_right fun heof => hk heof.2

/-- Cursor and input move on together. -/
theorem tail (h : On o c i) : On o c.advance i.tail := by
  refine ⟨h.follows.advance, ?_, h.ended.tail⟩
  rw [ahead_advance]
  exact congrArg List.tail h.pending

/-- A cursor on a token that is no end of input is in front of the rest. -/
theorem before (h : On o c i) (hk : i.head.kind ≠ .eof) : Before o c i.tail :=
  ⟨by rw [h.kind_current]; exact hk, h.tail⟩

theorem atLevel (h : On o c i) (n : Nat) : On (o.atLevel n) (c.atLevel n) i :=
  ⟨h.follows.atLevel n, h.pending, h.ended⟩

end On

namespace Before

/-- What a cursor in front of an input peeks at is what the input begins with. -/
theorem kind_peek (h : Before o c i) : c.peek.kind = i.head.kind := by
  rw [peek_eq h.kind_current]
  exact h.advance.kind_current

theorem atLevel (h : Before o c i) (n : Nat) : Before (o.atLevel n) (c.atLevel n) i := by
  refine ⟨h.kind_current, ?_⟩
  rw [advance_atLevel]
  exact h.advance.atLevel n

end Before

end Cursor

/-! ## Walks and rules -/

namespace Walk

variable {α β : Type} {w : Walk α} {f : α → Walk β} {c c' : Cursor} {a : α} {d : Diagnostic}

theorem bind_of_ok (h : w c = some (.ok a, c')) : (w >>= f) c = f a c' := by
  show (w c).bind _ = _
  rw [h]
  rfl

/-- A walk that has failed stays where it failed. -/
theorem bind_of_error (h : w c = some (.error d, c')) : (w >>= f) c = some (.error d, c') := by
  show (w c).bind _ = _
  rw [h]
  rfl

@[simp] theorem current_bind (f : Token → Walk β) (c : Cursor) :
    (current >>= f) c = f c.current c := rfl

@[simp] theorem peek_bind (f : Token → Walk β) (c : Cursor) : (peek >>= f) c = f c.peek c := rfl

@[simp] theorem advance_bind (f : Unit → Walk β) (c : Cursor) :
    (advance >>= f) c = f () c.advance := rfl

theorem discard_eq (w : Walk α) : discard w = w >>= fun _ => pure () := by
  funext c
  show (w c).bind _ = (w c).bind _
  cases w c with
  | none => rfl
  | some p => rcases p with ⟨_ | _, _⟩ <;> rfl

theorem expectPeek_of_eq {kind : Kind} (h : c.peek.kind = kind) :
    expectPeek kind c = some (.ok c.peek, c.advance) := by
  unfold expectPeek
  rw [peek_bind, advance_bind, if_pos h]
  rfl

/-- The cursor moves on even to a token that it does not accept. -/
theorem expectPeek_of_ne {kind : Kind} (h : c.peek.kind ≠ kind) :
    expectPeek kind c = some (.error ⟨.unexpectedToken kind, c.peek⟩, c.advance) := by
  unfold expectPeek
  rw [peek_bind, advance_bind, if_neg h]
  rfl

theorem expectCurrent_of_eq {kind : Kind} (h : c.current.kind = kind) :
    expectCurrent kind c = some (.ok c.current, c) := by
  unfold expectCurrent
  rw [current_bind, if_pos h]
  rfl

/-- A current token that is not accepted is not passed. -/
theorem expectCurrent_of_ne {kind : Kind} (h : c.current.kind ≠ kind) :
    expectCurrent kind c = some (.error ⟨.unexpectedToken kind, c.current⟩, c) := by
  unfold expectCurrent
  rw [current_bind, if_neg h]
  rfl

theorem openLevel_of_lt (h : c.nesting < maxNesting) :
    openLevel c = some (.ok (), c.atLevel (c.nesting + 1)) := by
  have hle : ¬maxNesting < c.nesting + 1 := by omega
  show (if maxNesting < c.nesting + 1 then (throw _ : Walk Unit) else pure ()) _ = _
  rw [if_neg hle]
  rfl

/-- The level is counted even when it is refused. -/
theorem openLevel_of_le (h : maxNesting ≤ c.nesting) :
    openLevel c = some (.error ⟨.nestedTooDeeply maxNesting, c.current⟩,
      c.atLevel (c.nesting + 1)) := by
  have hlt : maxNesting < c.nesting + 1 := by omega
  show (if maxNesting < c.nesting + 1 then (throw _ : Walk Unit) else pure ()) _ = _
  rw [if_pos hlt]
  rfl

end Walk

namespace Comes

variable {α β : Type} {v : Nat → Option α} {a : α}

theorem const (a : α) : Comes (fun _ => some a) a := ⟨0, fun _ _ => rfl⟩

theorem congr {v' : Nat → Option α} (heq : ∀ n, v n = v' n) (h : Comes v' a) : Comes v a := by
  rwa [funext heq]

/-- A call comes to what the body of the procedure comes to, with one call less to go. -/
theorem call {v' : Nat → Option α} (heq : ∀ n, v (n + 1) = v' n) (h : Comes v' a) :
    Comes v a := by
  obtain ⟨n, hn⟩ := h
  refine ⟨n + 1, fun m hm => ?_⟩
  obtain ⟨k, rfl⟩ := Nat.exists_eq_add_of_le hm
  rw [Nat.add_right_comm, heq]
  exact hn _ (Nat.le_add_right n k)

/-- A procedure comes to one answer at most. -/
theorem unique {b : α} (ha : Comes v a) (hb : Comes v b) : a = b := by
  obtain ⟨n, hn⟩ := ha
  obtain ⟨m, hm⟩ := hb
  have heq := hn (max n m) (Nat.le_max_left n m)
  rw [hm _ (Nat.le_max_right n m)] at heq
  exact (Option.some.inj heq).symm

/-- A second procedure, run on what the first one comes to. -/
theorem andThen {b : β} {f : Nat → α → Option β} (h : Comes v a)
    (hf : Comes (fun n => f n a) b) : Comes (fun n => (v n).bind (f n)) b := by
  obtain ⟨n, hn⟩ := h
  obtain ⟨m, hm⟩ := hf
  refine ⟨max n m, fun k hk => ?_⟩
  show (v k).bind (f k) = some b
  rw [hn k (Nat.le_trans (Nat.le_max_left n m) hk)]
  exact hm k (Nat.le_trans (Nat.le_max_right n m) hk)

theorem map {b : β} {f : α → β} (h : Comes v a) (hb : f a = b) :
    Comes (fun n => (v n).map f) b := by
  obtain ⟨n, hn⟩ := h
  refine ⟨n, fun m hm => ?_⟩
  show (v m).map f = some b
  rw [hn m hm, Option.map_some, hb]

end Comes

/--
How a walk and a rule end alike, whatever the walk's calls are given from some depth on. What holds
of the cursor and the input is `stands` where they have read something and `fails` where they have
failed.
-/
inductive Matches {α : Type} (stands fails : Cursor → Input → Prop)
    (w : Nat → Option (Except Diagnostic α × Cursor)) : EStateM.Result Diagnostic Input α → Prop
  | ok (a : α) {c : Cursor} {i : Input} (hw : Comes w (.ok a, c)) (h : stands c i) :
    Matches stands fails w (.ok a i)
  | error (reason : Diagnostic.Reason) {c : Cursor} {i : Input}
      (hw : Comes w (.error ⟨reason, c.current⟩, c)) (h : fails c i) :
    Matches stands fails w (.error ⟨reason, i.head⟩ i)

namespace Matches

open Cursor

variable {α β : Type} {S T F G : Cursor → Input → Prop} {w : Nat → Walk α} {r : Rule α}
  {f : Nat → α → Walk β} {g : α → Rule β} {o c : Cursor} {i : Input} {kind : Kind}
  {v : Nat → Option (Except Diagnostic α × Cursor)} {ri : EStateM.Result Diagnostic Input α}
  {ri' : EStateM.Result Diagnostic Input β}

/-- A call matches a rule if the body of the procedure does. -/
theorem call {v' : Nat → Option (Except Diagnostic α × Cursor)} (heq : ∀ n, v (n + 1) = v' n)
    (h : Matches S F v' ri) : Matches S F v ri := by
  cases h with
  | ok a hw h => exact .ok a (hw.call heq) h
  | error reason hw h => exact .error reason (hw.call heq) h

theorem pure (a : α) (h : S c i) :
    Matches S F (fun _ => (pure a : Walk α) c) ((pure a : Rule α) i) :=
  .ok a (.const _) h

theorem fail (reason : Diagnostic.Reason) (h : F c i) :
    Matches S F (fun _ => (throw ⟨reason, c.current⟩ : Walk α) c) ((Rule.fail reason : Rule α) i) :=
  .error reason (.const _) h

/-- A procedure that reads nothing may run first. -/
theorem andThen {γ : Type} {x : Nat → Option γ} {p : γ}
    {k : Nat → γ → Option (Except Diagnostic α × Cursor)} (hx : Comes x p)
    (h : Matches S F (fun n => k n p) ri) : Matches S F (fun n => (x n).bind (k n)) ri := by
  cases h with
  | ok a hw h => exact .ok a (hx.andThen hw) h
  | error reason hw h => exact .error reason (hx.andThen hw) h

/--
A walk after a walk matches a rule after a rule, if the second parts match wherever the first ones
have ended.
-/
theorem bind (h : Matches S F (fun n => w n c) (r i))
    (hf : ∀ a c' i', r i = .ok a i' → S c' i' → Matches T F (fun n => f n a c') (g a i')) :
    Matches T F (fun n => (w n >>= f n) c) ((r >>= g) i) := by
  generalize hr : r i = ri at h
  -- Two procedures in a row run the second on what the first one comes to.
  have hbind : ∀ n, (w n >>= f n) c
      = (w n c).bind fun p => ExceptT.bindCont (f n) p.1 p.2 := fun _ => rfl
  simp only [hbind]
  cases h with
  | ok a hw hs =>
    rw [Rule.bind_of_ok hr]
    exact .andThen hw (hf a _ _ hr hs)
  | error reason hw hs =>
    rw [Rule.bind_of_error hr]
    exact .error reason (hw.andThen (.const _)) hs

theorem current {f : Nat → Token → Walk β} (h : Matches S F (fun n => f n c.current c) ri') :
    Matches S F (fun n => (Walk.current >>= f n) c) ri' := h

theorem peek {f : Nat → Token → Walk β} (h : Matches S F (fun n => f n c.peek c) ri') :
    Matches S F (fun n => (Walk.peek >>= f n) c) ri' := h

theorem advance {f : Nat → Unit → Walk β} (h : Matches S F (fun n => f n () c.advance) ri') :
    Matches S F (fun n => (Walk.advance >>= f n) c) ri' := h

/-- Whatever follows from where walk and rule stand may be said of them instead. -/
theorem mono (h : Matches S F v ri) (hs : ∀ c i, S c i → T c i) (hf : ∀ c i, F c i → G c i) :
    Matches T G v ri := by
  cases h with
  | ok a hw h => exact .ok a hw (hs _ _ h)
  | error reason hw h => exact .error reason hw (hf _ _ h)

/-- A result that is not used makes no difference. -/
theorem discard (h : Matches S F (fun n => w n c) (r i)) :
    Matches S F (fun n => (Functor.discard (w n) : Walk Unit) c)
      ((Functor.discard r : Rule Unit) i) := by
  simp only [Walk.discard_eq, Rule.discard_eq]
  exact h.bind fun _ _ _ _ hs => .pure () hs

/-- A token that is asked for. -/
theorem expectPeek (hk : kind ≠ .eof) (h : Before o c i) :
    Matches (Before o) (On o) (fun _ => Walk.expectPeek kind c) (Rule.expect kind i) := by
  by_cases hkind : i.head.kind = kind
  · have hne : i.head.kind ≠ .eof := by rwa [hkind]
    rw [Walk.expectPeek_of_eq (h.kind_peek.trans hkind), Rule.expect_of_eq hkind,
      peek_eq h.kind_current, h.advance.current_eq hne]
    exact .ok _ (.const _) (h.advance.before hne)
  · rw [Walk.expectPeek_of_ne (by rwa [h.kind_peek]), Rule.expect_of_ne hkind,
      peek_eq h.kind_current]
    exact .error _ (.const _) h.advance

/-- The token that a rule takes and the walk stays on. -/
theorem expectCurrent (hk : kind ≠ .eof) (h : On o c i) :
    Matches (Before o) (On o) (fun _ => Walk.expectCurrent kind c) (Rule.expect kind i) := by
  by_cases hkind : i.head.kind = kind
  · have hne : i.head.kind ≠ .eof := by rwa [hkind]
    rw [Walk.expectCurrent_of_eq (h.kind_current.trans hkind), Rule.expect_of_eq hkind,
      h.current_eq hne]
    exact .ok _ (.const _) (h.before hne)
  · rw [Walk.expectCurrent_of_ne (by rwa [h.kind_current]), Rule.expect_of_ne hkind]
    exact .error _ (.const _) h

/-- A token that the walk asks for and the rule has at its front. -/
theorem expectPeek_bind {f : Nat → Token → Walk β} {r : Rule β} (h : Before o c i)
    (hok : i.head.kind = kind →
      Matches T (On o) (fun n => f n c.advance.current c.advance) (r i))
    (hfail : i.head.kind ≠ kind → r i = .error ⟨.unexpectedToken kind, i.head⟩ i) :
    Matches T (On o) (fun n => (Walk.expectPeek kind >>= f n) c) (r i) := by
  by_cases hkind : i.head.kind = kind
  · have hrun : ∀ n, (Walk.expectPeek kind >>= f n) c = f n c.advance.current c.advance := by
      intro n
      rw [Walk.bind_of_ok (Walk.expectPeek_of_eq (h.kind_peek.trans hkind)),
        peek_eq h.kind_current]
    simp only [hrun]
    exact hok hkind
  · have hrun : ∀ n, (Walk.expectPeek kind >>= f n) c
        = some (.error ⟨.unexpectedToken kind, c.advance.current⟩, c.advance) := by
      intro n
      rw [Walk.bind_of_error (Walk.expectPeek_of_ne (by rwa [h.kind_peek])),
        peek_eq h.kind_current]
    simp only [hrun]
    rw [hfail hkind]
    exact .error _ (.const _) h.advance

end Matches

end Ember
