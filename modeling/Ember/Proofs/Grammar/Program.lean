import Ember.Proofs.Grammar.Completeness

/-!
# The parser accepts its grammar

A list of tokens is parsed without a diagnostic exactly when it is a program of the grammar whose
reading opens no more levels than may be open at once, and then the statements are those that the
grammar gives it.
-/

namespace Ember

open Phrase

/-- Statements that are read without a diagnostic are a program. -/
theorem statements_of_readStatements :
    ∀ (n : Nat) {i : Input} {ss : List Stmt}, i.Ended → i.pending.length ≤ n →
      readStatements n i = (ss, []) → ∃ l, l ≤ maxNesting ∧ Statements i.pending ss l
  | 0, i, ss, _, hn, h => by
    have hnil : i.pending = [] := List.eq_nil_of_length_eq_zero (Nat.le_zero.mp hn)
    cases h
    rw [hnil]
    exact ⟨0, Nat.zero_le _, .nil⟩
  | n + 1, i, ss, hi, hn, h => by
    unfold readStatements at h
    split at h
    · next hempty =>
      cases h
      rw [List.isEmpty_iff.mp hempty]
      exact ⟨0, Nat.zero_le _, .nil⟩
    · split at h
      · next s j hs =>
        obtain ⟨hj, l, hl, hstmt⟩ := Grammar.sound_statement (Grammar.sound_expression _) hi s j hs
        have hlt := hstmt.length_lt
        simp only [Prod.mk.injEq] at h
        obtain ⟨rfl, hnil⟩ := h
        obtain ⟨m, hm, hrest⟩ := statements_of_readStatements n hj (by omega)
          (Prod.ext rfl hnil)
        exact ⟨max l m, Nat.max_le.mpr ⟨hl, hm⟩, .cons hstmt hrest⟩
      · cases h

/--
A program of the grammar is read without a diagnostic if its levels are within the limit. Otherwise
the first statement that opens too many is reported.
-/
theorem readStatements_of_statements {z : Token} (hz : z.kind = .eof) {ts : List Token}
    {ss : List Stmt} {n : Nat} (h : Statements ts ss n) :
    ∀ l, ts.length ≤ l →
      (n ≤ maxNesting → readStatements l ⟨ts, z⟩ = (ss, [])) ∧
      (maxNesting < n → ∃ d ∈ (readStatements l ⟨ts, z⟩).2,
        d.reason = .nestedTooDeeply maxNesting) := by
  induction h with
  | nil =>
    intro l _
    refine ⟨fun _ => ?_, fun hlt => absurd hlt (Nat.not_lt_zero _)⟩
    cases l <;> rfl
  | cons hs hss ih =>
    rename_i ts us s ss n m
    intro l hl
    have hlt := hs.length_lt
    have hends : EndsStatement us := by
      cases hss with
      | nil => exact Or.inr (Or.inl rfl)
      | cons hs' _ => exact Or.inr (Or.inr hs'.starts)
    obtain ⟨l, rfl⟩ : ∃ k, l = k + 1 := ⟨l - 1, by omega⟩
    have hne : ts.isEmpty = false := by
      cases ts with
      | nil => simp at hlt
      | cons => rfl
    have hread := hs.reads hz hends maxNesting
    obtain ⟨hgood, hbad⟩ := ih l (by omega)
    rcases Nat.lt_or_ge maxNesting n with hn | hn
    · -- this statement is the first that opens too many levels
      refine ⟨fun hmax => absurd hmax (by omega), fun _ => ?_⟩
      obtain ⟨t, k, ht⟩ := hread.2 hn
      refine ⟨⟨.nestedTooDeeply maxNesting, t⟩, ?_, rfl⟩
      simp [readStatements, hne, ht]
    · have hstep : readStatements (l + 1) ⟨ts, z⟩
          = (s :: (readStatements l ⟨us, z⟩).1, (readStatements l ⟨us, z⟩).2) := by
        simp [readStatements, hne, hread.1 hn]
      rw [hstep]
      refine ⟨fun hmax => ?_, fun hmax => hbad (by omega)⟩
      rw [hgood (by omega)]

/-- A token list that is a program of the grammar is parsed to its statements within the limit. -/
theorem Program.ofTokens_of_statements {body : List Token} {ending : Token}
    (hbody : ∀ t ∈ body, t.kind ≠ .eof) (hending : ending.kind = .eof) {ss : List Stmt} {n : Nat}
    (h : Statements body ss n) :
    (n ≤ maxNesting → ofTokens ⟨body ++ [ending]⟩ = ⟨ss, []⟩) ∧
      (maxNesting < n → ∃ d ∈ (ofTokens ⟨body ++ [ending]⟩).diagnostics,
        d.reason = .nestedTooDeeply maxNesting) := by
  obtain ⟨hwithin, hbeyond⟩ :=
    readStatements_of_statements hending h body.length (Nat.le_refl _)
  unfold ofTokens
  rw [Input.ofList_concat hbody hending]
  refine ⟨fun hn => ?_, hbeyond⟩
  show (⟨(readStatements body.length ⟨body, ending⟩).1, _⟩ : Program) = _
  rw [hwithin hn]

/--
A token list that ends in its only end of input is parsed without a diagnostic exactly when the
tokens in front of it are a program of the grammar within the limit on nesting, and the statements
are those of the program.
-/
theorem ofTokens_eq_iff_statements {body : List Token} {ending : Token}
    (hbody : ∀ t ∈ body, t.kind ≠ .eof) (hending : ending.kind = .eof) (ss : List Stmt) :
    Program.ofTokens ⟨body ++ [ending]⟩ = ⟨ss, []⟩ ↔
      ∃ n, n ≤ maxNesting ∧ Statements body ss n := by
  have hrun : Program.ofTokens ⟨body ++ [ending]⟩
      = ⟨(readStatements body.length ⟨body, ending⟩).1,
          (readStatements body.length ⟨body, ending⟩).2⟩ := by
    unfold Program.ofTokens
    rw [Input.ofList_concat hbody hending]
  rw [hrun, Program.mk.injEq]
  constructor
  · rintro ⟨hss, hds⟩
    have hi : (⟨body, ending⟩ : Input).Ended := hending
    exact statements_of_readStatements body.length hi (Nat.le_refl _) (Prod.ext hss hds)
  · rintro ⟨n, hn, h⟩
    have hread := (readStatements_of_statements hending h body.length (Nat.le_refl _)).1 hn
    rw [hread]
    exact ⟨rfl, rfl⟩

/-- `a + b * -c(d)` without a semicolon: the product is an operand of the sum, the call one of the
sign. -/
theorem statements_sum_of_product :
    let a := Token.synthetic .ident "a"
    let b := Token.synthetic .ident "b"
    let c := Token.synthetic .ident "c"
    let d := Token.synthetic .ident "d"
    let plus := Token.synthetic .plus "+"
    let star := Token.synthetic .asterisk "*"
    let minus := Token.synthetic .minus "-"
    let opening := Token.synthetic .lParen "("
    let closing := Token.synthetic .rParen ")"
    ∃ n, n ≤ maxNesting ∧ Statements [a, plus, b, star, minus, c, opening, d, closing]
      [.expression plus (.binary plus (.identifier ⟨a, "a"⟩) .add
        (.binary star (.identifier ⟨b, "b"⟩) .mul
          (.unary minus .neg
            (.call opening (.identifier ⟨c, "c"⟩) [.identifier ⟨d, "d"⟩]))))] n := by
  intro a b c d plus star minus opening closing
  have hending : Token.endOfInput.kind = .eof := rfl
  exact (ofTokens_eq_iff_statements (by decide) hending _).mp rfl

end Ember
