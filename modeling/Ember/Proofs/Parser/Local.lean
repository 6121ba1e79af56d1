import Ember.Proofs.Parser.Run

/-!
# Rules that look one token ahead

A rule is `Local` on an input when its answer depends only on the tokens it takes and on the one
token it stops in front of. What comes behind may be exchanged at will, and the answer stays. This
holds of success and of failure.

A local rule also keeps count of the braces around it (`nest`): it never takes a `}` that closes a
brace it did not open itself, and never a `;` outside the braces that are open.

## Names

The lemmas `Local.bind`, `Local.advance` and so on follow the commands of a rule one by one, so that
the locality of a rule is read off its definition.
-/

namespace Ember

/-! ## Braces -/

/--
How many braces are open once a token of this kind is taken, when there are so many before it. No
token may close a brace that is not open, no semicolon stands outside all braces, and an end of
input is never taken.
-/
def nestKind : Kind → Nat → Option Nat
  | .lBrace, depth => some (depth + 1)
  | .rBrace, depth + 1 => some depth
  | .rBrace, 0 => none
  | .semicolon, 0 => none
  | .eof, _ => none
  | _, depth => some depth

/-- An end of input is never taken. -/
theorem ne_eof_of_nestKind {kind : Kind} {a b : Nat} (h : nestKind kind a = some b) :
    kind ≠ .eof := by
  rintro rfl
  cases h

/-- How many braces are open once the tokens are taken. -/
def nest : Nat → List Token → Option Nat
  | depth, [] => some depth
  | depth, t :: ts => (nestKind t.kind depth).bind (nest · ts)

theorem nest_cons {a b : Nat} {t : Token} (h : nestKind t.kind a = some b) (ts : List Token) :
    nest a (t :: ts) = nest b ts := by
  rw [nest, h, Option.bind_some]

/-- The braces of two runs of tokens are counted one run after the other. -/
theorem nest_append (depth : Nat) (ts us : List Token) :
    nest depth (ts ++ us) = (nest depth ts).bind (nest · us) := by
  induction ts generalizing depth with
  | nil => rfl
  | cons t ts ih =>
    rw [List.cons_append, nest, nest, Option.bind_assoc]
    congr 1
    funext b
    exact ih b

theorem nest_append_of_eq {a b : Nat} {ts : List Token} (h : nest a ts = some b)
    (us : List Token) : nest a (ts ++ us) = nest b us := by
  rw [nest_append, h, Option.bind_some]

namespace Input

/-! ## Tokens in front of an input -/

/-- An input with more tokens in front. -/
def prepend (c : List Token) (j : Input) : Input := ⟨c ++ j.pending, j.ending⟩

@[simp] theorem prepend_nil (j : Input) : j.prepend [] = j := rfl

/-- Tokens are put in front from the last to the first. -/
theorem prepend_append (c d : List Token) (j : Input) :
    j.prepend (c ++ d) = (j.prepend d).prepend c := by
  unfold prepend
  rw [List.append_assoc]

@[simp] theorem prepend_pending (c : List Token) (j : Input) :
    (j.prepend c).pending = c ++ j.pending := rfl

@[simp] theorem head_prepend_cons (t : Token) (c : List Token) (j : Input) :
    (j.prepend (t :: c)).head = t := rfl

/-- What is put in front does not change the end. -/
theorem Ended.prepend {j : Input} (hj : j.Ended) (c : List Token) : (j.prepend c).Ended := hj

theorem Ended.of_prepend {j : Input} {c : List Token} (h : (j.prepend c).Ended) : j.Ended := h

theorem Ended.of_eq_prepend {i j : Input} {c : List Token} (hi : i.Ended) (h : i = j.prepend c) :
    j.Ended := by
  rw [h] at hi
  exact hi.of_prepend

/-- With the same tokens in front of both, inputs with the same head keep the same head. -/
theorem head_prepend_congr {j k : Input} (h : k.head = j.head) (c : List Token) :
    (k.prepend c).head = (j.prepend c).head := by
  cases c with
  | nil => exact h
  | cons t c => rfl

/-- Behind a token in front, nothing matters to the head. -/
theorem head_prepend_concat {j k : Input} (c : List Token) (t : Token) :
    (k.prepend (c ++ [t])).head = (j.prepend (c ++ [t])).head := by
  rw [prepend_append, prepend_append]
  exact head_prepend_congr (head_prepend_cons t [] k) c

/-- A token at the front that is no end of input can be told apart from what follows it. -/
theorem Ended.eq_prepend {i : Input} (hi : i.Ended) (h : i.head.kind ≠ .eof) :
    i = i.tail.prepend [i.head] := by
  have hp := hi.pending_eq h
  obtain ⟨pending, ending⟩ := i
  show (⟨pending, ending⟩ : Input) = _
  rw [show pending = _ from hp]
  rfl

end Input

namespace Rule

variable {α β : Type} {a b c : Nat} {r s : Rule α} {f : α → Rule β} {i : Input}

/--
From `i`, the rule takes some tokens and stops in front of another. It does the same wherever these
tokens stand. It started inside `a` braces and has come to be inside `b` when it succeeds.
-/
inductive Local (a b : Nat) (r : Rule α) (i : Input) : Prop
  | ok (x : α) (taken : List Token) (j : Input) (hi : i = j.prepend taken)
      (hnest : nest a taken = some b)
      (run : ∀ k : Input, k.Ended → k.head = j.head → r (k.prepend taken) = .ok x k)
  | error (d : Diagnostic) (taken : List Token) (j : Input) (hi : i = j.prepend taken)
      (hnest : ∃ n, nest a taken = some n) (found : d.found = j.head)
      (run : ∀ k : Input, k.Ended → k.head = j.head → r (k.prepend taken) = .error d k)

namespace Local

/-! ## One command -/

/-- Nothing is taken, so as many braces are open as before. -/
theorem pure (x : α) : Local a a (Pure.pure x) i :=
  .ok x [] i rfl rfl fun _ _ _ => rfl

/-- The rule fails at once, and the token in front is the one that it reports. -/
theorem fail (reason : Diagnostic.Reason) : Local a b (Rule.fail reason : Rule α) i := by
  refine .error ⟨reason, i.head⟩ [] i rfl ⟨a, rfl⟩ rfl ?_
  intro k _ hk
  show EStateM.Result.error (⟨reason, k.head⟩ : Diagnostic) k = _
  rw [hk]

/-- Rules that agree on all inputs with this head are local together. -/
theorem congr (h : Local a b s i)
    (heq : ∀ k : Input, k.Ended → k.head = i.head → r k = s k) : Local a b r i := by
  cases h with
  | ok x taken j hi hnest run =>
    refine .ok x taken j hi hnest fun k hk hkj => ?_
    rw [heq _ (hk.prepend taken) (by rw [hi]; exact Input.head_prepend_congr hkj taken)]
    exact run k hk hkj
  | error d taken j hi hnest found run =>
    refine .error d taken j hi hnest found fun k hk hkj => ?_
    rw [heq _ (hk.prepend taken) (by rw [hi]; exact Input.head_prepend_congr hkj taken)]
    exact run k hk hkj

/-- A rule may look at the next token, which is part of what it depends on. -/
theorem peek {f : Token → Rule β} (h : Local a b (f i.head) i) :
    Local a b (Rule.peek >>= f) i :=
  h.congr fun k _ hk => by rw [peek_bind, hk]

theorem peekKind {f : Kind → Rule β} (h : Local a b (f i.head.kind) i) :
    Local a b (Rule.peekKind >>= f) i :=
  h.congr fun k _ hk => by rw [peekKind_bind, hk]

/-- A token may be taken when the braces allow it. -/
theorem advance (hi : i.Ended) (hn : nestKind i.head.kind a = some b) :
    Local a b Rule.advance i := by
  refine .ok i.head [i.head] i.tail (hi.eq_prepend (ne_eof_of_nestKind hn)) ?_ ?_
  · rw [nest_cons hn]
    rfl
  · intro k _ _
    rfl

/-- The expected token is taken where the braces allow it; another one is left and reported. -/
theorem expect {kind : Kind} (hi : i.Ended) (hn : nestKind kind a = some b) :
    Local a b (Rule.expect kind) i := by
  unfold Rule.expect
  refine .peekKind ?_
  split
  · next h => exact .advance hi (by rw [h]; exact hn)
  · exact .fail _

/-! ## The answer on the input itself -/

/-- How a success goes, with the tokens that were taken and the rule run at another place. -/
theorem of_ok {x : α} {j : Input} (h : Local a b r i) (hi : i.Ended) (hr : r i = .ok x j) :
    ∃ taken, i = j.prepend taken ∧ nest a taken = some b ∧
      ∀ k : Input, k.Ended → k.head = j.head → r (k.prepend taken) = .ok x k := by
  cases h with
  | ok y taken l hil hnest run =>
    have hrun := run l (hi.of_eq_prepend hil) rfl
    rw [← hil, hr] at hrun
    cases hrun
    exact ⟨taken, hil, hnest, run⟩
  | error d taken l hil hnest found run =>
    have hrun := run l (hi.of_eq_prepend hil) rfl
    rw [← hil, hr] at hrun
    cases hrun

/-- How a failure goes: the token reported is the first one that was not taken. -/
theorem of_error {d : Diagnostic} {j : Input} (h : Local a b r i) (hi : i.Ended)
    (hr : r i = .error d j) :
    ∃ taken n, i = j.prepend taken ∧ nest a taken = some n ∧ d.found = j.head ∧
      ∀ k : Input, k.Ended → k.head = j.head → r (k.prepend taken) = .error d k := by
  cases h with
  | ok y taken l hil hnest run =>
    have hrun := run l (hi.of_eq_prepend hil) rfl
    rw [← hil, hr] at hrun
    cases hrun
  | error e taken l hil hnest found run =>
    have hrun := run l (hi.of_eq_prepend hil) rfl
    rw [← hil, hr] at hrun
    cases hrun
    obtain ⟨n, hn⟩ := hnest
    exact ⟨taken, n, hil, hn, found, run⟩

/-! ## Sequences -/

/--
The second rule is run only on what the first one may leave, and the tokens of both are taken
together.
-/
theorem bind (hi : i.Ended) (hr : Local a b r i)
    (hf : ∀ x j, r i = .ok x j → j.Ended → Local b c (f x) j) : Local a c (r >>= f) i := by
  cases hr with
  | error d taken j hij hnest found run =>
    exact .error d taken j hij hnest found fun k hk hkj => bind_of_error (run k hk hkj)
  | ok x taken j hij hnest run =>
    have hj : j.Ended := hi.of_eq_prepend hij
    have hrun : r i = .ok x j := by
      rw [hij]
      exact run j hj rfl
    -- What the second rule takes stands in front of what the first one looks at.
    have hfirst : ∀ (taken' : List Token) (j' k : Input), j = j'.prepend taken' → k.Ended →
        k.head = j'.head → r (k.prepend (taken ++ taken')) = .ok x (k.prepend taken') := by
      intro taken' j' k hj' hk hkj
      rw [Input.prepend_append]
      refine run _ (hk.prepend taken') ?_
      rw [hj']
      exact Input.head_prepend_congr hkj taken'
    cases hf x j hrun hj with
    | ok y taken' j' hij' hnest' run' =>
      refine .ok y (taken ++ taken') j' ?_ ?_ ?_
      · rw [hij, hij', Input.prepend_append]
      · rw [nest_append_of_eq hnest, hnest']
      · intro k hk hkj
        rw [bind_of_ok (hfirst taken' j' k hij' hk hkj)]
        exact run' k hk hkj
    | error d taken' j' hij' hnest' found run' =>
      refine .error d (taken ++ taken') j' ?_ ?_ found ?_
      · rw [hij, hij', Input.prepend_append]
      · rw [nest_append_of_eq hnest]
        exact hnest'
      · intro k hk hkj
        rw [bind_of_ok (hfirst taken' j' k hij' hk hkj)]
        exact run' k hk hkj

/-- A sequence whose second part does not depend on how the first one went. -/
theorem andThen (hi : i.Ended) (hr : Local a b r i)
    (hf : ∀ x j, j.Ended → Local b c (f x) j) : Local a c (r >>= f) i :=
  hr.bind hi fun x j _ hj => hf x j hj

theorem discard (hi : i.Ended) (hr : Local a b r i) : Local a b (Functor.discard r) i :=
  hr.andThen hi fun _ _ _ => .pure ()

/-- A loop, by induction on the tokens there are. -/
theorem whileNext {accepts : Kind → Bool} (ht : Takes r)
    (hr : ∀ i : Input, i.Ended → accepts i.head.kind = true → Local a a r i) (hi : i.Ended) :
    Local a a (Rule.whileNext accepts r) i := by
  induction hn : i.pending.length using Nat.strongRecOn generalizing i with
  | ind n ih =>
    cases ha : accepts i.head.kind with
    | false =>
      exact (Local.pure []).congr fun k _ hk => whileNext_of_neg (by rw [hk]; exact ha)
    | true =>
      -- Both sides unfold once; what is left after a run is shorter because the rule takes a token.
      have hloop : Local a a
          (r >>= fun x => Rule.whileNext accepts r >>= fun xs => Pure.pure (x :: xs)) i := by
        refine (hr i hi ha).bind hi ?_
        intro x j hx hj
        obtain ⟨-, hlt⟩ := ht hi x j hx
        exact (ih _ (by omega) hj rfl).andThen hj fun xs _ _ => .pure (x :: xs)
      exact hloop.congr fun k hk hki => whileNext_of_pos ht hk (by rw [hki]; exact ha)

end Local

end Rule

end Ember
