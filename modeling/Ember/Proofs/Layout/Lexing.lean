import Ember.Proofs.Lexing.LongestMatch
import Ember.Proofs.Lexing.Spans

/-!
# Layout separates tokens

Layout can stand inside of a string, but every other token ends in front of it. So a text in which
all strings have an end may be continued behind a layout character, and both parts are read as they
are read alone (`scan_append_layout`). Every token is read from its own text as it was read from the
whole text (`scan_spelling`).

Therefore the tokens of a text can be laid out anew, with any layout between them, and are read back
as they are (`scan_of_spaced`).
-/

namespace Ember

/-! ## Strings without an end -/

/-- The piece of a quote without a partner. -/
def Piece.IsUnclosed (p : Piece) : Prop := p.1 = .illegal ∧ p.2.toList.head? = some '"'

/-- The token of a quote without a partner. -/
def Token.IsUnclosed (t : Token) : Prop := t.kind = .illegal ∧ t.literal.toList.head? = some '"'

/-! ## Runs of characters -/

/-- A run of characters ends at a character that is not one of them. -/
theorem takeWhile_append_cons {p : Char → Bool} {w : Char} (hw : p w = false)
    (cs ds : List Char) : (cs ++ w :: ds).takeWhile p = cs.takeWhile p ∧
      (cs ++ w :: ds).dropWhile p = cs.dropWhile p ++ w :: ds := by
  induction cs with
  | nil => simp [hw]
  | cons c cs ih => by_cases hc : p c = true <;> simp [hc, ih]

/-- A run of characters that has come to its end is not prolonged by what follows. -/
theorem takeWhile_append_of_dropWhile {p : Char → Bool} {cs : List Char}
    (h : cs.dropWhile p ≠ []) (ds : List Char) : (cs ++ ds).takeWhile p = cs.takeWhile p ∧
      (cs ++ ds).dropWhile p = cs.dropWhile p ++ ds := by
  induction cs with
  | nil => exact absurd rfl h
  | cons c cs ih =>
    by_cases hc : p c = true
    · rw [List.dropWhile_cons_of_pos hc] at h
      simp [hc, ih h]
    · simp [hc]

theorem plain_of_isLayout {w : Char} (hw : Text.isLayout w = true) :
    w.isDigit = false ∧ isWordPart w = false ∧ w ≠ '=' := by
  simp only [Text.isLayout, Bool.or_eq_true, beq_iff_eq] at hw
  rcases hw with ((rfl | rfl) | rfl) | rfl <;> decide

theorem ofSymbolPair?_eq_none {c d : Char} (hd : d ≠ '=') : Kind.ofSymbolPair? c d = none := by
  rw [Kind.ofSymbolPair?, if_neg hd]

/-! ## One lexeme -/

namespace Lexeme

variable {c w : Char} {cs : List Char}

/-- The lexeme with more text behind it. -/
def before (l : Lexeme) (ds : List Char) : Lexeme := { l with rest := l.rest ++ ds }

theorem ofSymbol_append_layout (hw : w ≠ '=') (c : Char) (cs ds : List Char) :
    ofSymbol c (cs ++ w :: ds) = (ofSymbol c cs).before (w :: ds) := by
  cases cs with
  | nil => simp [ofSymbol, ofSymbolPair?_eq_none hw, before]
  | cons d cs =>
    simp only [ofSymbol, List.cons_append]
    split <;> simp [before]

/-- A quote that has found its partner does not look any further. -/
theorem ofQuote_append (h : ¬(ofQuote '"' cs).piece.IsUnclosed) (ds : List Char) :
    ofQuote '"' (cs ++ ds) = (ofQuote '"' cs).before ds := by
  unfold ofQuote at h ⊢
  cases hrest : cs.dropWhile isStringPart with
  | nil =>
    rw [hrest] at h
    exact absurd ⟨rfl, by simp [piece, literal]⟩ h
  | cons quote rest =>
    have hend : cs.dropWhile isStringPart ≠ [] := by simp [hrest]
    simp [takeWhile_append_of_dropWhile hend, hrest, before]

/-- What is read in front of a layout character does not depend on what follows. -/
theorem read_append_layout (hw : Text.isLayout w = true)
    (hclosed : ¬(read c cs).piece.IsUnclosed) (ds : List Char) :
    read c (cs ++ w :: ds) = (read c cs).before (w :: ds) := by
  obtain ⟨hdigit, hpart, heq⟩ := plain_of_isLayout hw
  unfold read at hclosed ⊢
  by_cases hc : c.isDigit = true
  · simp [hc, takeWhile_append_cons hdigit, before]
  by_cases hstart : isWordStart c = true
  · simp [hc, hstart, takeWhile_append_cons hpart, before]
  by_cases hquote : c = '"'
  · subst hquote
    exact ofQuote_append hclosed (w :: ds)
  · simp [hc, hstart, hquote, ofSymbol_append_layout heq]

theorem ofSymbol_own_text (c : Char) (cs : List Char) :
    ofSymbol c (ofSymbol c cs).text.tail = { ofSymbol c cs with rest := [] } := by
  cases cs with
  | nil => simp [ofSymbol]
  | cons d cs => cases hpair : Kind.ofSymbolPair? c d <;> simp [ofSymbol, hpair]

theorem ofQuote_own_text (c : Char) (cs : List Char) :
    ofQuote c (ofQuote c cs).text.tail = { ofQuote c cs with rest := [] } := by
  unfold ofQuote
  cases hrest : cs.dropWhile isStringPart with
  | nil => simp [hrest]
  | cons quote rest =>
    have hquote : isStringPart quote = false := by
      simpa [hrest] using List.head?_dropWhile_not isStringPart cs
    have hrun : ∀ d ∈ cs.takeWhile isStringPart, isStringPart d = true :=
      List.all_eq_true.mp List.all_takeWhile
    have hend : ∀ d ∈ [quote].head?, isStringPart d = false := by simpa using hquote
    obtain ⟨htake, hdrop⟩ := takeWhile_run hrun hend
    simp [htake, hdrop]

/-- A lexeme is read from its own text as it was read from more. -/
theorem read_own_text (c : Char) (cs : List Char) :
    read c (read c cs).text.tail = { read c cs with rest := [] } := by
  have hrun : ∀ p : Char → Bool, (cs.takeWhile p).takeWhile p = cs.takeWhile p ∧
      (cs.takeWhile p).dropWhile p = [] := by
    intro p
    have hp : ∀ d ∈ cs.takeWhile p, p d = true := List.all_eq_true.mp List.all_takeWhile
    have hend : ∀ d ∈ [].head?, p d = false := nofun
    simpa using takeWhile_run hp hend
  unfold read
  by_cases hc : c.isDigit = true
  · simp [hc, hrun]
  by_cases hstart : isWordStart c = true
  · simp [hc, hstart, hrun]
  by_cases hquote : c = '"'
  · simp only [if_neg hc, if_neg hstart, if_pos hquote]
    exact ofQuote_own_text c cs
  · simpa [hc, hstart, hquote] using ofSymbol_own_text c cs

theorem text_eq_cons (c : Char) (cs : List Char) :
    (read c cs).text = c :: (read c cs).text.tail := by
  have h := text_append_rest c cs
  cases htext : (read c cs).text with
  | nil => exact absurd htext (text_ne_nil c cs)
  | cons d ds =>
    rw [htext, List.cons_append] at h
    rw [(List.cons.inj h).1, List.tail_cons]

end Lexeme

/-! ## Texts with layout between them -/

/-- A text with strings that all have an end may be cut at a layout character. -/
theorem scan_append_layout {w : Char} (hw : Text.isLayout w = true) {cs : List Char}
    (hclosed : ∀ p ∈ scan cs, ¬Piece.IsUnclosed p) (ds : List Char) :
    scan (cs ++ w :: ds) = scan cs ++ scan ds := by
  induction hn : cs.length using Nat.strongRecOn generalizing cs with
  | ind n ih =>
    cases cs with
    | nil => simp [scan_layout hw]
    | cons c cs =>
      by_cases hc : Text.isLayout c = true
      · rw [scan_layout hc] at hclosed
        rw [List.cons_append, scan_layout hc, scan_layout hc]
        exact ih cs.length (by simp [← hn]) hclosed rfl
      · rw [Bool.not_eq_true] at hc
        rw [scan_cons hc, List.forall_mem_cons] at hclosed
        rw [List.cons_append, scan_cons hc, scan_cons hc,
          Lexeme.read_append_layout hw hclosed.1]
        have hlt : (Lexeme.read c cs).rest.length < n := by
          rw [← hn]
          exact Lexeme.length_rest_read c cs
        exact congrArg (_ :: ·) (ih _ hlt hclosed.2 rfl)

/-- Layout in front leaves no trace. -/
theorem scan_isLayout_append {layout : List Char} (h : IsLayout layout) (cs : List Char) :
    scan (layout ++ cs) = scan cs := by
  induction layout with
  | nil => rfl
  | cons w layout ih =>
    obtain ⟨hw, hlayout⟩ := List.forall_mem_cons.mp h
    rw [List.cons_append, scan_layout hw, ih hlayout]

/--
The texts stand one behind the other, and nothing but layout stands between them, in front of the
first and behind the last. Between two of them there is at least one layout character.
-/
inductive Spaced : List String → List Char → Prop
  | nil : Spaced [] []
  | layout {c : Char} {texts : List String} {cs : List Char} (hc : c ∈ layoutCharacters)
      (h : Spaced texts cs) : Spaced texts (c :: cs)
  | last (text : String) : Spaced [text] text.toList
  | text (text : String) {c : Char} {texts : List String} {cs : List Char}
      (hc : c ∈ layoutCharacters) (h : Spaced texts cs) :
      Spaced (text :: texts) (text.toList ++ c :: cs)

/-- Every token is read from its own text as it was read from the whole. -/
theorem scan_spelling (l : Lexer) : ∀ t ∈ l.tokens, t.kind ≠ .eof →
    scan t.spelling.toList = [t.piece] := by
  induction l using Lexer.tokens_induction with
  | ending l hrest => simp [Lexer.endToken]
  | token l c cs ts hrest ih =>
    rw [List.forall_mem_cons]
    refine ⟨fun _ => ?_, ih⟩
    have hc : Text.isLayout c = false := by
      simpa [hrest] using List.head?_dropWhile_not Text.isLayout l.rest
    rw [spelling_tokenOf, String.toList_ofList, Lexeme.text_eq_cons, scan_cons hc,
      Lexeme.read_own_text, scan_nil]
    rfl

/-- Tokens that are laid out anew are read back as they are. -/
theorem scan_of_spaced {ts : List Token} {cs : List Char}
    (halone : ∀ t ∈ ts, scan t.spelling.toList = [t.piece]) (hclosed : ∀ t ∈ ts, ¬t.IsUnclosed)
    (h : Spaced (ts.map Token.spelling) cs) : scan cs = ts.map Token.piece := by
  generalize htexts : ts.map Token.spelling = texts at h
  induction h generalizing ts with
  | nil => simp [List.map_eq_nil_iff.mp htexts]
  | layout hc _ ih => rw [scan_layout (isLayout_iff.mpr hc), ih halone hclosed htexts]
  | last text =>
    obtain ⟨t, rfl, rfl⟩ := List.map_eq_singleton_iff.mp htexts
    simpa using halone
  | text text hc _ ih =>
    obtain ⟨t, us, rfl, rfl, hus⟩ := List.map_eq_cons_iff.mp htexts
    rw [List.forall_mem_cons] at halone hclosed
    have hcut : ∀ p ∈ scan t.spelling.toList, ¬Piece.IsUnclosed p := by
      rw [halone.1, List.forall_mem_singleton]
      exact hclosed.1
    rw [scan_append_layout (isLayout_iff.mpr hc) hcut, halone.1, ih halone.2 hclosed.2 hus]
    rfl

/--
Whatever layout stands between the tokens of a text whose strings all have an end, the same tokens
are read.
-/
theorem map_piece_of_spaced {source text : String}
    (hclosed : ∀ t ∈ (TokenList.ofSource source).tokens, ¬t.IsUnclosed)
    (h : Spaced ((TokenList.ofSource source).tokens.dropLast.map Token.spelling) text.toList) :
    (TokenList.ofSource text).tokens.map Token.piece =
      (TokenList.ofSource source).tokens.map Token.piece := by
  obtain ⟨body, ending, hsource, hpieces, -, hbody⟩ := TokenList.exists_ofSource source
  have htokens : (TokenList.ofSource source).tokens = body ++ [ending] := congrArg _ hsource
  have halone : ∀ t ∈ body, scan t.spelling.toList = [t.piece] := by
    intro t ht
    have hmem : t ∈ (TokenList.ofSource source).tokens := by simp [htokens, ht]
    exact scan_spelling (.ofString source) t hmem (hbody t ht)
  rw [htokens, List.forall_mem_append] at hclosed
  rw [htokens, List.dropLast_concat] at h
  have hscan : scan text.toList = scan source.toList :=
    (scan_of_spaced halone hclosed.1 h).trans hpieces
  have hpieces_text := map_piece_tokens (.ofString text)
  have hpieces_source := map_piece_tokens (.ofString source)
  exact hpieces_text.trans ((congrArg (· ++ _) hscan).trans hpieces_source.symm)

end Ember
