import Ember.Proofs.Recovery.Placeholders

/-!
# What is parsed without a diagnostic closes its braces

A statement that is read closes every brace that it opens and no other. So tokens that are parsed to
statements throughout are balanced (`balanced_of_readAll`). If a semicolon is the last of them, what
follows them is parsed on its own (`closes_of_readAll`).
-/

namespace Ember

open Grammar

/-- All braces are closed, and none is closed that is not open. -/
structure Balanced (ts : List Token) : Prop where
  nonneg : ∀ q, q <+: ts → 0 ≤ Recovery.openBraces q
  level : Recovery.openBraces ts = 0

namespace Balanced

variable {ts us : List Token}

theorem nil : Balanced [] where
  nonneg q hq := by simp [List.prefix_nil.mp hq, Recovery.openBraces]
  level := rfl

theorem append (hts : Balanced ts) (hus : Balanced us) : Balanced (ts ++ us) where
  nonneg q hq := by
    rcases List.prefix_or_prefix_of_prefix hq (List.prefix_append ts us) with hshort | ⟨r, rfl⟩
    · exact hts.nonneg q hshort
    · rw [Recovery.openBraces_append, hts.level, Int.zero_add]
      exact hus.nonneg r ((List.prefix_append_right_inj ts).mp hq)
  level := by rw [Recovery.openBraces_append, hts.level, hus.level]; rfl

/-- A semicolon is balanced. -/
theorem semicolon {t : Token} (ht : t.kind = .semicolon) : Balanced [t] where
  nonneg q hq := by
    rcases List.prefix_cons_iff.mp hq with rfl | ⟨r, rfl, hr⟩
    · exact Int.le_refl 0
    · rw [List.prefix_nil.mp hr]
      exact Int.le_of_eq (openBraces_semicolon ht).symm
  level := openBraces_semicolon ht

/-- What takes the count of braces from zero to zero is balanced. -/
theorem of_nest (h : nest 0 ts = some 0) : Balanced ts where
  nonneg q hq := by
    obtain ⟨r, rfl⟩ := hq
    rw [nest_append] at h
    obtain ⟨n, hn, -⟩ := Option.bind_eq_some_iff.mp h
    have hcount := openBraces_of_nest hn
    omega
  level := openBraces_of_nest_zero h

/-- With a semicolon at its end, such a stretch is parsed on its own. -/
theorem closes (h : Balanced ts) (hs : ∀ t ∈ ts.getLast?, t.kind = .semicolon) : Closes 0 ts where
  nonneg q hq := by simpa using h.nonneg q hq
  level := by simpa using h.level
  semicolon := hs

end Balanced

variable {i j : Input} {s : Stmt}

/-! ## What a rule takes -/

/-- The rule takes tokens from the front of the input, balanced ones if it succeeds. -/
structure Balances {α : Type} (r : Rule α) (i : Input) : Prop where
  ok : ∀ {x j}, r i = .ok x j → ∃ taken, i = j.prepend taken ∧ Balanced taken
  error : ∀ {d j}, r i = .error d j → ∃ taken, i = j.prepend taken

namespace Balances

variable {α : Type} {r : Rule α}

theorem of_local (hi : i.Ended) (h : Rule.Local 0 0 r i) : Balances r i where
  ok hr := by
    obtain ⟨taken, hij, hnest, -⟩ := h.of_ok hi hr
    exact ⟨taken, hij, .of_nest hnest⟩
  error hr := by
    obtain ⟨taken, -, hij, -⟩ := h.of_error hi hr
    exact ⟨taken, hij⟩

theorem of_settles (hi : i.Ended) (h : Settles r i) : Balances r i := by
  cases h with
  | before h => exact .of_local hi h
  | past x taken semicolon k hik hnest hs run =>
    have hrun := run k (hi.of_eq_prepend hik)
    rw [← hik] at hrun
    constructor
    · intro y j hr
      rw [hrun] at hr
      cases hr
      exact ⟨taken ++ [semicolon], hik, (Balanced.of_nest hnest).append (.semicolon hs)⟩
    · intro d j hr
      rw [hrun] at hr
      cases hr

end Balances

/-- A statement that is read takes a balanced stretch of tokens. -/
theorem balanced_of_statement_ok (hi : i.Ended)
    (h : statement (expression maxNesting) i = .ok s j) :
    ∃ taken, i = j.prepend taken ∧ Balanced taken :=
  (Balances.of_settles hi (settles_statement (local_expression maxNesting) hi)).ok h

/-- Tokens that are parsed without a diagnostic are balanced. -/
theorem balanced_of_readAll (hi : i.Ended) (h : (readAll i).2 = []) : Balanced i.pending := by
  refine readAll_induction (P := fun i r => r.2 = [] → Balanced i.pending) ?_ ?_ ?_ hi h
  · intro i _ hpending _
    rw [hpending]
    exact .nil
  · intro i s j r hi hrun hr hd
    obtain ⟨taken, rfl, htaken⟩ := balanced_of_statement_ok hi hrun
    exact htaken.append (hr hd)
  · intro i d j r _ _ _ _ hd
    cases hd

theorem closes_of_readAll (hi : i.Ended) (h : (readAll i).2 = [])
    (hs : ∀ t ∈ i.pending.getLast?, t.kind = .semicolon) : Closes 0 i.pending :=
  (balanced_of_readAll hi h).closes hs

/-- Where there are tokens, there are statements. -/
theorem readAll_ne_nil (hi : i.Ended) (hne : i.pending ≠ []) : (readAll i).1 ≠ [] := by
  refine readAll_induction (P := fun i r => i.pending ≠ [] → r.1 ≠ []) ?_ ?_ ?_ hi hne
  · intro i _ hpending hne
    exact absurd hpending hne
  · intros
    exact List.cons_ne_nil _ _
  · intros
    exact List.cons_ne_nil _ _

end Ember
