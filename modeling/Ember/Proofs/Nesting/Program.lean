import Ember.Proofs.Canonical.Phrases
import Ember.Proofs.Grammar.Program
import Ember.Proofs.Nesting.Height
import Ember.Proofs.Recovery.Placeholders

/-!
# The height of parsed trees

What the limit on nesting says about the trees of a program: a statement is at most `maxNesting`
expressions high, and one more for every left operand with parts on the way, but never higher than
the sum of the numbers up to `maxNesting` (`Program.height_le`).

The limit keeps trees from growing without end, but not within its own number: 255 minus signs and
`1 + 1` behind them are enough to pass it (`Program.height_signedSum`).

That no bound below the second one would do is a result of its own: it is reached
(`Program.exists_height_eq`). A way to get there is an array literal that is called over and over,
inside of another one (`exists_tower`).
-/

namespace Ember

open Phrase

/-! ## The bounds -/

/--
The height of a statement of a program is bounded by the limit on nesting together with its
overhang, and by the sum of the numbers up to the limit.
-/
theorem Program.height_le (l : TokenList) {s : Stmt} (hs : s ∈ (ofTokens l).statements) :
    s.height ≤ maxNesting + s.overhang ∧ s.height ≤ triangle maxNesting := by
  rcases phrase_of_mem_readAll (Input.ended_ofList l) hs with hmissing | ⟨ts, n, us, -, hn, h⟩
  · -- A placeholder has no expressions at all.
    cases s with
    | missing t => exact ⟨Nat.zero_le _, Nat.zero_le _⟩
    | _ => exact absurd rfl hmissing
  · have hfits := h.fits.mono hn (Nat.le_refl _)
    exact ⟨hfits.le_add, hfits.le_triangle⟩

/-- `-a + b`: the sum is one node on top of a left operand that has parts. -/
theorem Program.height_negated_sum :
    let minus := Token.synthetic .minus "-"
    let a := Token.synthetic .ident "a"
    let plus := Token.synthetic .plus "+"
    let b := Token.synthetic .ident "b"
    let s := Stmt.ofExpr (.binary plus (.unary minus .neg (.identifier (.ofToken a))) .add
      (.identifier (.ofToken b)))
    let l : TokenList := ⟨[minus, a, plus, b, .endOfInput]⟩
    s ∈ (ofTokens l).statements ∧ s.height = 3 ∧ s.overhang = 1 ∧
      s.height ≤ maxNesting + s.overhang ∧ s.height ≤ triangle maxNesting := by
  intro minus a plus b s l
  have hs : s ∈ (ofTokens l).statements := List.mem_singleton.mpr rfl
  exact ⟨hs, rfl, rfl, height_le l hs⟩

example : triangle maxNesting = 32896 := rfl

/-! ## Towers -/

/-- As many calls as levels are open can be put on top of an operand for no further level. -/
theorem exists_calls {ts : List Token} {e : Expr} {n : Nat}
    (h : ∀ us, Operation .application (ts ++ us) e 0 n us) : ∀ k ≤ n, ∃ cs e',
      (∀ t ∈ cs, t.kind ≠ .eof) ∧ e'.height = e.height + k ∧
        ∀ us, Operation .application (ts ++ (cs ++ us)) e' k n us
  | 0, _ => ⟨[], e, nofun, rfl, h⟩
  | k + 1, hk => by
    obtain ⟨cs, e', hcs, hheight, hcalls⟩ := exists_calls h k (by omega)
    let opening := Token.synthetic .lParen "("
    let closing := Token.synthetic .rParen ")"
    have hlevels : max n (k + 1 + 0) = n := by omega
    refine ⟨cs ++ [opening, closing], .call opening e' [], ?_, ?_, ?_⟩
    · intro t ht
      rcases List.mem_append.mp ht with ht | ht
      · exact hcs t ht
      · rcases List.mem_pair.mp ht with rfl | rfl <;> decide
    · show max e'.height 0 + 1 = e.height + (k + 1)
      omega
    · intro us
      have hcall :=
        Operation.call (hcalls (opening :: closing :: us)) rfl (.none (t := closing) rfl)
      rw [hlevels] at hcall
      rw [List.append_assoc]
      exact hcall

/-- With `n` levels, a tree can be as high as the sum of the numbers up to `n`. -/
theorem exists_tower : ∀ n : Nat, ∃ ts e, (∀ t ∈ ts, t.kind ≠ .eof) ∧
    e.height = triangle (n + 1) ∧ ∀ us, Nested .equality (ts ++ us) e (n + 1) us
  | 0 => by
    let t := Token.synthetic .ident "x"
    refine ⟨[t], .identifier (.ofToken t), by decide, rfl, fun us => ?_⟩
    exact nested_of_operation (.atom (.identifier rfl))
  | n + 1 => by
    obtain ⟨ts, e, hts, hheight, htower⟩ := exists_tower n
    let opening := Token.synthetic .lBracket "["
    let closing := Token.synthetic .rBracket "]"
    -- The tower so far becomes the one element of an array literal, which is then called.
    have hlevels : max (n + 1) 0 = n + 1 := by omega
    have harray : ∀ us, Operation .application
        ((opening :: (ts ++ [closing])) ++ us) (.array opening [e]) 0 (n + 1) us := by
      intro us
      have hitems : Items .rBracket (ts ++ closing :: us) [e] (max (n + 1) 0) us :=
        .some (htower (closing :: us)) (.close rfl)
      rw [hlevels] at hitems
      rw [List.cons_append, List.append_assoc]
      exact .tighter rfl (.atom (.array rfl hitems))
    obtain ⟨cs, e', hcs, hheight', hcalls⟩ := exists_calls harray (n + 1) (Nat.le_refl _)
    refine ⟨opening :: (ts ++ [closing]) ++ cs, e', ?_, ?_, ?_⟩
    · intro t ht
      simp only [List.mem_append, List.mem_cons, List.not_mem_nil, or_false] at ht
      rcases ht with (rfl | ht | rfl) | ht
      · decide
      · exact hts t ht
      · decide
      · exact hcs t ht
    · have harrayHeight : (Expr.array opening [e]).height = max e.height 0 + 1 := rfl
      rw [hheight', harrayHeight, hheight, triangle_succ (n + 1)]
      omega
    · intro us
      rw [List.append_assoc]
      exact nested_of_operation (hcalls us)

/-- There is a program without diagnostics that is as high as the bound allows. -/
theorem Program.exists_height_eq :
    ∃ l s, ofTokens l = ⟨[s], []⟩ ∧ s.height = triangle maxNesting := by
  obtain ⟨ts, e, hts, hheight, htower⟩ := exists_tower 255
  have hstatement : Statement ts (.ofExpr e) maxNesting [] := by
    have hnested := htower []
    rw [List.append_nil] at hnested
    exact .bare hnested rfl
  have hstatements : Statements ts [.ofExpr e] (max maxNesting 0) := .cons hstatement .nil
  have hending : Token.endOfInput.kind = .eof := rfl
  exact ⟨⟨ts ++ [.endOfInput]⟩, .ofExpr e,
    (ofTokens_of_statements hts hending hstatements).1 (Nat.le_refl _), hheight⟩

/-! ## Signs -/

/-- The expression is a one with `k` minus signs in front of it. -/
inductive Signed : Nat → Expr → Prop
  | one {t : Token} : Signed 0 (.integer t 1)
  | minus {k : Nat} {t : Token} {e : Expr} : Signed k e → Signed (k + 1) (.unary t .neg e)

theorem Signed.height {k : Nat} {e : Expr} (h : Signed k e) : e.height = k + 1 := by
  induction h with
  | one => rfl
  | minus _ ih => rw [Expr.height, ih]

/-- The pieces of `k` minus signs and a one. -/
def signedPieces : Nat → List Piece
  | 0 => [(.int, "1")]
  | k + 1 => (.minus, "-") :: signedPieces k

/-- Each sign opens a level, and all of them are closed behind the one. -/
theorem operation_of_signedPieces : ∀ (k : Nat) (ts us : List Token),
    Spells ts (signedPieces k) us → ∃ e, Signed k e ∧ Operation .unary ts e 0 k us
  | 0, ts, us, h => by
    obtain ⟨t, rfl, hkind, hliteral⟩ := Spells.of_singleton h
    have hvalue : (Text.readInt? t.literal.toList).bind fit? = some 1 := by
      rw [hliteral]
      decide
    exact ⟨.integer t 1, .one, .tighter rfl (.tighter rfl (.atom (.integer hkind hvalue)))⟩
  | k + 1, ts, us, h => by
    obtain ⟨t, vs, rfl, hkind, -, h⟩ := Spells.of_cons h
    obtain ⟨e, hsigned, he⟩ := operation_of_signedPieces k vs us h
    exact ⟨.unary t .neg e, .minus hsigned, .unary hkind (.mk he)⟩

/-- The text of `k` minus signs and a one is scanned to its pieces. -/
theorem scan_signed {rest : List Char} (h : Apart rest) : ∀ k : Nat,
    scan (List.replicate k '-' ++ '1' :: rest) = signedPieces k ++ scan rest
  | 0 => by
    have hdigit : ∀ c ∈ ['1'], c.isDigit = true := List.forall_mem_singleton.mpr rfl
    exact scan_digits hdigit h
  | k + 1 => by
    have hminus : Kind.ofSymbol? '-' = some .minus := rfl
    have hsingle : ∀ d : Char, Kind.ofSymbolPair? '-' d = none := by
      intro d
      unfold Kind.ofSymbolPair?
      split <;> rfl
    rw [List.replicate_succ, List.cons_append, scan_symbol hminus fun d _ => hsingle d,
      scan_signed h k]
    rfl

/-- The text of `k` minus signs and `1 + 1` behind them. -/
def signedSum (k : Nat) : String := String.ofList (List.replicate k '-' ++ "1 + 1".toList)

theorem scan_signedSum (k : Nat) :
    scan (signedSum k).toList = signedPieces k ++ (.plus, "+") :: signedPieces 0 := by
  have hplus : Kind.ofSymbol? '+' = some .plus := rfl
  have hblank : ∀ d ∈ (' ' :: ['1']).head?, Kind.ofSymbolPair? '+' d = none := by
    rintro d ⟨⟩
    rfl
  have hright : scan ['1'] = signedPieces 0 ++ scan [] := scan_signed .nil 0
  unfold signedSum
  rw [String.toList_ofList]
  show scan (List.replicate k '-' ++ '1' :: ' ' :: '+' :: ' ' :: ['1']) = _
  rw [scan_signed (.cons rfl _), scan_layout rfl, scan_symbol hplus hblank, scan_layout rfl,
    hright, scan_nil, List.append_nil]

/--
The signs give their levels back before the sum is put on top of them, so the sum is higher by one
than the levels it opens.
-/
theorem Program.exists_ofSource_signedSum {k : Nat} (hk : k + 2 ≤ maxNesting) :
    ∃ s, ofSource (signedSum (k + 1)) = ⟨[s], []⟩ ∧ s.height = k + 3 := by
  obtain ⟨body, ending, hsource, hpieces, hending, hbody⟩ :=
    TokenList.exists_ofSource (signedSum (k + 1))
  rw [scan_signedSum] at hpieces
  have hspells : Spells body (signedPieces (k + 1) ++ (.plus, "+") :: signedPieces 0) [] := by
    rw [← hpieces]
    exact .of_map body
  obtain ⟨vs, hleft, h⟩ := Spells.of_append hspells
  obtain ⟨t, ws, rfl, ht, -, hright⟩ := Spells.of_cons h
  obtain ⟨left, hsigned, hl⟩ := operation_of_signedPieces (k + 1) body (t :: ws) hleft
  obtain ⟨right, hone, hr⟩ := operation_of_signedPieces 0 ws [] hright
  have hleft' : Operation (.ofOp .add) body left 0 (k + 1) (t :: ws) := hl.loosen (by decide)
  have hright' : Nested .product ws right 1 [] := .mk (hr.loosen (by decide))
  -- The levels of the signs and that of the operator are counted side by side.
  have hsum : Operation .sum body (.binary t left .add right) 1 (max (k + 1) (0 + 1 + 1)) [] :=
    .binary hleft' ht rfl hright'
  have hstatements : Statements body [.ofExpr (.binary t left .add right)] _ :=
    .cons (.bare (nested_of_operation hsum) rfl) .nil
  refine ⟨.ofExpr (.binary t left .add right), ?_, ?_⟩
  · unfold ofSource
    rw [hsource]
    refine (ofTokens_of_statements hbody hending hstatements).1 ?_
    unfold maxNesting at hk ⊢
    omega
  · show max left.height right.height + 1 = k + 3
    rw [hsigned.height, hone.height]
    omega

/-- 255 minus signs and `1 + 1` are parsed without a diagnostic, and higher than the limit. -/
theorem Program.height_signedSum :
    ∃ s, ofSource (signedSum 255) = ⟨[s], []⟩ ∧ s.height = maxNesting + 1 :=
  exists_ofSource_signedSum (k := 254) (by decide)

end Ember
