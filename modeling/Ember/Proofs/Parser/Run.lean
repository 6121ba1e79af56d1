import Ember.Parser.Program

/-!
# Running a rule

What the primitive rules answer, and how the answer of a sequence comes from the answers of its
parts. Everything is said of one input at a time.

An input is `Ended` when its last token is an end of input. That token is then never taken by a rule
that asks for any other kind, so a token that was taken stood in front of it (`Ended.pending_eq`).
-/

namespace Ember

namespace Input

/-- The token that is read past the pending ones is an end of input. -/
def Ended (i : Input) : Prop := i.ending.kind = .eof

/-- A token of any other kind at the front is a pending one. -/
theorem Ended.pending_eq {i : Input} (hi : i.Ended) (h : i.head.kind ≠ .eof) :
    i.pending = i.head :: i.tail.pending := by
  obtain ⟨pending, ending⟩ := i
  cases pending with
  | nil => exact absurd hi h
  | cons t ts => rfl

theorem Ended.tail {i : Input} (hi : i.Ended) : i.tail.Ended := hi

/-- The input that a list gives has an end of input past its pending tokens. -/
theorem ended_ofList (l : TokenList) : (ofList l).Ended := by
  unfold Ended ofList
  cases h : l.tokens.find? (·.kind = .eof) with
  | none => rfl
  | some t => simpa using List.find?_some h

/-- Tokens in front of the first end of input are pending. -/
theorem ofList_append {ts us : List Token} (h : ∀ t ∈ ts, t.kind ≠ .eof) :
    ofList ⟨ts ++ us⟩ = ⟨ts ++ (ofList ⟨us⟩).pending, (ofList ⟨us⟩).ending⟩ := by
  unfold ofList
  have htake : ∀ t ∈ ts, decide (t.kind ≠ .eof) = true := fun t ht => decide_eq_true (h t ht)
  have hfind : ts.find? (fun t => decide (t.kind = .eof)) = none := by
    rw [List.find?_eq_none]
    intro t ht
    simpa using h t ht
  rw [List.takeWhile_append_of_pos htake, List.find?_append, hfind, Option.none_or]

theorem ofList_eof {z : Token} (hz : z.kind = .eof) (us : List Token) :
    ofList ⟨z :: us⟩ = ⟨[], z⟩ := by
  simp [ofList, hz]

/-- A list that ends in its only end of input. -/
theorem ofList_concat {ts : List Token} {z : Token} (h : ∀ t ∈ ts, t.kind ≠ .eof)
    (hz : z.kind = .eof) : ofList ⟨ts ++ [z]⟩ = ⟨ts, z⟩ := by
  rw [ofList_append h, ofList_eof hz, List.append_nil]

end Input

namespace Rule

variable {α β : Type} {r : Rule α} {f : α → Rule β} {i j : Input} {a b : α}

/-! ## Sequences -/

/-- A rule goes on where the one before it has stopped. -/
theorem bind_of_ok (h : r i = .ok a j) : (r >>= f) i = f a j := by
  show EStateM.bind r f i = f a j
  unfold EStateM.bind
  rw [h]

/-- Behind a failure nothing is read. -/
theorem bind_of_error {d : Diagnostic} (h : r i = .error d j) : (r >>= f) i = .error d j := by
  show EStateM.bind r f i = .error d j
  unfold EStateM.bind
  rw [h]

/-- A sequence depends on its first part only through what that answers. -/
theorem bind_congr_left {s : Rule α} (h : r i = s i) : (r >>= f) i = (s >>= f) i := by
  show EStateM.bind r f i = EStateM.bind s f i
  unfold EStateM.bind
  rw [h]

/-- A sequence that succeeds succeeds in both parts. -/
theorem of_bind_ok {b : β} (h : (r >>= f) i = .ok b j) :
    ∃ a k, r i = .ok a k ∧ f a k = .ok b j := by
  cases hr : r i with
  | ok a k => exact ⟨a, k, rfl, by rwa [bind_of_ok hr] at h⟩
  | error d k => rw [bind_of_error hr] at h; cases h

theorem of_pure_ok (h : (pure a : Rule α) i = .ok b j) : b = a ∧ j = i := by
  cases h
  exact ⟨rfl, rfl⟩

/-- Forgetting what was read is a sequence too. -/
theorem discard_eq (r : Rule α) : discard r = r >>= fun _ => pure () := rfl

/-! ## Looking and taking -/

@[simp] theorem peek_bind (f : Token → Rule β) (i : Input) : (peek >>= f) i = f i.head i := rfl

@[simp] theorem peekKind_bind (f : Kind → Rule β) (i : Input) :
    (peekKind >>= f) i = f i.head.kind i := rfl

@[simp] theorem advance_bind (f : Token → Rule β) (i : Input) :
    (advance >>= f) i = f i.head i.tail := rfl

theorem expect_of_eq {kind : Kind} (h : i.head.kind = kind) :
    expect kind i = .ok i.head i.tail := by
  unfold expect
  rw [peekKind_bind, if_pos h]
  rfl

theorem expect_cons {kind : Kind} {t z : Token} {us : List Token} (h : t.kind = kind) :
    expect kind ⟨t :: us, z⟩ = .ok t ⟨us, z⟩ := expect_of_eq h

/-- Another token is reported and left where it is. -/
theorem expect_of_ne {kind : Kind} (h : i.head.kind ≠ kind) :
    expect kind i = .error ⟨.unexpectedToken kind, i.head⟩ i := by
  unfold expect
  rw [peekKind_bind, if_neg h]
  rfl

/-- What is expected is answered and taken. -/
theorem of_expect_ok {kind : Kind} {t : Token} (h : expect kind i = .ok t j) :
    i.head.kind = kind ∧ t = i.head ∧ j = i.tail := by
  by_cases hk : i.head.kind = kind
  · rw [expect_of_eq hk] at h
    cases h
    exact ⟨hk, rfl, rfl⟩
  · rw [expect_of_ne hk] at h
    cases h

/-! ## What a success establishes -/

/-- If the rule succeeds on the input, what it answers and what it leaves are as `Q` says. -/
def Yields (r : Rule α) (i : Input) (Q : α → Input → Prop) : Prop :=
  ∀ a j, r i = .ok a j → Q a j

namespace Yields

variable {P Q : α → Input → Prop} {R : β → Input → Prop}

/-- What the first rule establishes is what the second one may use. -/
theorem bind (hr : Yields r i P) (hf : ∀ a j, P a j → Yields (f a) j R) :
    Yields (r >>= f) i R := by
  intro b k h
  obtain ⟨a, j, ha, hb⟩ := of_bind_ok h
  exact hf a j (hr a j ha) b k hb

theorem mono (hr : Yields r i P) (h : ∀ a j, P a j → Q a j) : Yields r i Q :=
  fun a j ha => h a j (hr a j ha)

theorem pure (h : Q a i) : Yields (Pure.pure a) i Q := by
  intro b j hb
  obtain ⟨rfl, rfl⟩ := of_pure_ok hb
  exact h

theorem fail (reason : Diagnostic.Reason) : Yields (Rule.fail reason) i Q := by
  intro a j h
  cases h

theorem peek {f : Token → Rule β} (h : Yields (f i.head) i R) : Yields (Rule.peek >>= f) i R := h

theorem peekKind {f : Kind → Rule β} (h : Yields (f i.head.kind) i R) :
    Yields (Rule.peekKind >>= f) i R := h

theorem advance {f : Token → Rule β} (h : Yields (f i.head) i.tail R) :
    Yields (Rule.advance >>= f) i R := h

/-- A token that was asked for stood in front of the ones that are left. -/
theorem expect {kind : Kind} (hi : i.Ended) (hk : kind ≠ .eof) :
    Yields (Rule.expect kind) i fun t j =>
      j.Ended ∧ t.kind = kind ∧ i.pending = t :: j.pending := by
  intro t j h
  obtain ⟨hkind, rfl, rfl⟩ := of_expect_ok h
  exact ⟨hi.tail, hkind, hi.pending_eq (by rw [hkind]; exact hk)⟩

/--
A loop. `Q i as k` is what is known of a run that read `as` and went from `i` to `k`: it holds of no
run at all, and one more run in front keeps it.
-/
theorem whileNext {accepts : Kind → Bool} {Q : Input → List α → Input → Prop}
    (stop : ∀ i, i.Ended → Q i [] i)
    (step : ∀ i, i.Ended → accepts i.head.kind = true →
      Yields r i fun a j => j.Ended ∧ ∀ as k, Q j as k → Q i (a :: as) k)
    (hi : i.Ended) : Yields (Rule.whileNext accepts r) i fun as k => k.Ended ∧ Q i as k := by
  have loop : ∀ n i, i.Ended → Yields (atMost accepts r n) i fun as k => k.Ended ∧ Q i as k := by
    intro n
    induction n with
    | zero => intro i hi; exact .pure ⟨hi, stop i hi⟩
    | succ n ih =>
      intro i hi
      unfold atMost
      refine .peekKind ?_
      split
      · next ha =>
        refine (step i hi ha).bind ?_
        rintro a j ⟨hj, hstep⟩
        refine (ih j hj).bind ?_
        rintro as k ⟨hk, hq⟩
        exact .pure ⟨hk, hstep as k hq⟩
      · exact .pure ⟨hi, stop i hi⟩
  exact loop _ i hi

end Yields

/-! ## Loops -/

/-- Whether a rule that succeeds has taken a token. -/
def Takes (r : Rule α) : Prop :=
  ∀ {i : Input}, i.Ended → Yields r i fun _ j =>
    j.Ended ∧ j.pending.length < i.pending.length

/-- One round of a loop. -/
theorem atMost_succ_of_pos {accepts : Kind → Bool} (n : Nat) (h : accepts i.head.kind = true) :
    atMost accepts r (n + 1) i
      = (r >>= fun a => atMost accepts r n >>= fun as => pure (a :: as)) i := by
  rw [atMost, peekKind_bind, if_pos h]

theorem atMost_succ_of_neg {accepts : Kind → Bool} (n : Nat) (h : accepts i.head.kind = false) :
    atMost accepts r (n + 1) i = .ok [] i := by
  rw [atMost, peekKind_bind, h]
  rfl

/-- Any bound above the number of pending tokens gives the same answer. -/
theorem atMost_eq_of_lt {accepts : Kind → Bool} (hr : Takes r) :
    ∀ (n m : Nat) (i : Input), i.Ended → i.pending.length < n → i.pending.length < m →
      atMost accepts r n i = atMost accepts r m i
  | 0, _, _, _, hn, _ => absurd hn (Nat.not_lt_zero _)
  | _, 0, _, _, _, hm => absurd hm (Nat.not_lt_zero _)
  | n + 1, m + 1, i, hi, hn, hm => by
    cases ha : accepts i.head.kind with
    | false => rw [atMost_succ_of_neg n ha, atMost_succ_of_neg m ha]
    | true =>
      rw [atMost_succ_of_pos n ha, atMost_succ_of_pos m ha]
      cases h : r i with
      | error d j => rw [bind_of_error h, bind_of_error h]
      | ok a j =>
        obtain ⟨hj, hlt⟩ := hr hi a j h
        rw [bind_of_ok h, bind_of_ok h]
        show EStateM.bind _ _ j = EStateM.bind _ _ j
        unfold EStateM.bind
        rw [atMost_eq_of_lt hr n m j hj (by omega) (by omega)]

theorem whileNext_of_neg {accepts : Kind → Bool} (h : accepts i.head.kind = false) :
    whileNext accepts r i = .ok [] i := atMost_succ_of_neg _ h

/-- A loop runs its rule once and goes on. -/
theorem whileNext_of_pos {accepts : Kind → Bool} (hr : Takes r) (hi : i.Ended)
    (h : accepts i.head.kind = true) :
    whileNext accepts r i
      = (r >>= fun a => whileNext accepts r >>= fun as => pure (a :: as)) i := by
  unfold whileNext
  rw [atMost_succ_of_pos _ h]
  cases hri : r i with
  | error d j => rw [bind_of_error hri, bind_of_error hri]
  | ok a j =>
    obtain ⟨hj, hlt⟩ := hr hi a j hri
    rw [bind_of_ok hri, bind_of_ok hri]
    show EStateM.bind _ _ j = EStateM.bind _ _ j
    unfold EStateM.bind
    rw [atMost_eq_of_lt hr _ (j.pending.length + 1) j hj hlt (Nat.lt_succ_self _)]

end Rule

end Ember
