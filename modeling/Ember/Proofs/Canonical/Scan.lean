import Ember.Token.Lexer

/-!
# Lexing without places

The kinds and literals of the tokens of a text depend on its characters alone. `scan` reads them off
without counting bytes and lines, and `tokens_eq_scan` ties it to the lexer. What it does with one
lexeme is said by an equation for each sort of lexeme, over any text that may follow.

A word and a numeral end where no character of a word follows (`Apart`). Every other lexeme of a
canonical text is known to end by its own last character, apart from the `!` and `=` that a second
`=` would prolong.
-/

namespace Ember

/-- What a token is, apart from its place. -/
abbrev Piece := Kind × String

/-- The kind and the literal of a token. -/
def Token.piece (t : Token) : Piece := (t.kind, t.literal)

/-- The kind and the literal of the token that a lexeme makes. -/
def Lexeme.piece (l : Lexeme) : Piece := (l.kind, l.literal)

/-- The pieces of a text. -/
def scan (cs : List Char) : List Piece :=
  match _h : cs.dropWhile Text.isLayout with
  | [] => []
  | c :: ds => (Lexeme.read c ds).piece :: scan (Lexeme.read c ds).rest
termination_by cs.length
decreasing_by
  have hread := Lexeme.length_rest_read c ds
  have hdrop := (List.dropWhile_sublist (l := cs) Text.isLayout).length_le
  rw [_h] at hdrop
  omega

@[simp] theorem scan_nil : scan [] = [] := by
  rw [scan]
  rfl

theorem scan_of_dropWhile_eq {cs ds : List Char}
    (h : cs.dropWhile Text.isLayout = ds.dropWhile Text.isLayout) : scan cs = scan ds := by
  rw [scan, scan]
  split
  · next hcs =>
    rw [h] at hcs
    split
    · rfl
    · next hds => rw [hcs] at hds; cases hds
  · next c es hcs =>
    rw [h] at hcs
    split
    · next hds => rw [hcs] at hds; cases hds
    · next hds =>
      rw [hcs] at hds
      cases hds
      rfl

/-- A layout character leaves no trace. -/
theorem scan_layout {c : Char} (h : Text.isLayout c = true) (cs : List Char) :
    scan (c :: cs) = scan cs :=
  scan_of_dropWhile_eq (List.dropWhile_cons_of_pos h)

theorem scan_of_cons {cs ds : List Char} {c : Char} (h : cs.dropWhile Text.isLayout = c :: ds) :
    scan cs = (Lexeme.read c ds).piece :: scan (Lexeme.read c ds).rest := by
  rw [scan]
  split
  · next heq => rw [h] at heq; cases heq
  · next heq =>
    rw [h] at heq
    cases heq
    rfl

theorem scan_cons {c : Char} (h : Text.isLayout c = false) (cs : List Char) :
    scan (c :: cs) = (Lexeme.read c cs).piece :: scan (Lexeme.read c cs).rest :=
  scan_of_cons (List.dropWhile_cons_of_neg (by rw [h]; exact Bool.false_ne_true))

/-! ## The lexer -/

/-- A word is a name or a reserved word. -/
theorem ofWord_ne (kind : Kind) (hname : kind ≠ .ident) (hkeyword : kind.isKeyword = false)
    (word : String) : Kind.ofWord word ≠ kind := by
  unfold Kind.ofWord
  cases h : Kind.ofKeyword? word with
  | none => exact hname.symm
  | some k =>
    rintro rfl
    rw [Option.getD_some, Kind.isKeyword_of_ofKeyword? h] at hkeyword
    cases hkeyword

/-- One line of a table of symbols. -/
theorem of_ite_eq_some {p : Prop} [Decidable p] {a b : Kind} {others : Option Kind}
    (h : (if p then some a else others) = some b) : (p ∧ a = b) ∨ others = some b := by
  by_cases hp : p
  · rw [if_pos hp] at h
    exact .inl ⟨hp, Option.some.inj h⟩
  · rw [if_neg hp] at h
    exact .inr h

/-- A symbol begins nothing but itself. -/
theorem plain_of_ofSymbol? {c : Char} {kind : Kind} (h : Kind.ofSymbol? c = some kind) :
    Text.isLayout c = false ∧ c.isDigit = false ∧ isWordStart c = false ∧ c ≠ '"' ∧
      isWordPart c = false ∧ kind ≠ .string ∧ kind ≠ .eof := by
  unfold Kind.ofSymbol? at h
  iterate 17
    rcases of_ite_eq_some h with ⟨rfl, rfl⟩ | h
    · decide
  cases h

theorem plain_of_ofSymbolPair? {c d : Char} {kind : Kind}
    (h : Kind.ofSymbolPair? c d = some kind) :
    (c = '=' ∨ c = '!') ∧ d = '=' ∧ kind ≠ .string ∧ kind ≠ .eof := by
  unfold Kind.ofSymbolPair? at h
  by_cases hd : d = '='
  · rw [if_pos hd] at h
    rcases of_ite_eq_some h with ⟨hc, rfl⟩ | h
    · exact ⟨.inl hc, hd, by decide, by decide⟩
    rcases of_ite_eq_some h with ⟨hc, rfl⟩ | h
    · exact ⟨.inr hc, hd, by decide, by decide⟩
    cases h
  · rw [if_neg hd] at h
    cases h

/-- A lexeme that the table of symbols decides on is neither a string nor an end of input. -/
theorem kind_ofSymbol_ne (c : Char) (cs : List Char) :
    (Lexeme.ofSymbol c cs).kind ≠ .string ∧ (Lexeme.ofSymbol c cs).kind ≠ .eof := by
  have hsingle : (Kind.ofSymbol? c).getD .illegal ≠ .string ∧
      (Kind.ofSymbol? c).getD .illegal ≠ .eof := by
    cases h : Kind.ofSymbol? c with
    | none => exact ⟨nofun, nofun⟩
    | some k =>
      obtain ⟨-, -, -, -, -, hk⟩ := plain_of_ofSymbol? h
      exact hk
  unfold Lexeme.ofSymbol
  split
  · exact hsingle
  · split
    · next hk => exact (plain_of_ofSymbolPair? hk).2.2
    · exact hsingle

/-- No lexeme is an end of input. -/
theorem kind_read_ne_eof (c : Char) (cs : List Char) : (Lexeme.read c cs).kind ≠ .eof := by
  unfold Lexeme.read
  split
  · exact nofun
  split
  · exact ofWord_ne .eof nofun rfl _
  split
  · unfold Lexeme.ofQuote
    split <;> exact nofun
  · exact (kind_ofSymbol_ne c cs).2

namespace Lexer

variable {l : Lexer} {c : Char} {cs : List Char}

theorem next_of_nil (h : l.rest.dropWhile Text.isLayout = []) :
    l.next = (l.skipLayout.endToken, l.skipLayout) := by
  have hskip : l.skipLayout.rest = [] := h
  unfold next take
  rw [hskip]

theorem next_of_cons (h : l.rest.dropWhile Text.isLayout = c :: cs) :
    l.next = (l.skipLayout.tokenOf (Lexeme.read c cs),
      l.skipLayout.consume (Lexeme.read c cs).text (Lexeme.read c cs).rest) := by
  have hskip : l.skipLayout.rest = c :: cs := h
  unfold next take
  rw [hskip]

/-- Behind the last token there is the end of input. -/
theorem tokens_of_nil (h : l.rest.dropWhile Text.isLayout = []) :
    l.tokens = [l.skipLayout.endToken] := by
  rw [tokens, next_of_nil h]
  exact dif_pos rfl

/-- The first token is the first lexeme behind the layout. -/
theorem tokens_of_cons (h : l.rest.dropWhile Text.isLayout = c :: cs) :
    l.tokens = l.skipLayout.tokenOf (Lexeme.read c cs) ::
      (l.skipLayout.consume (Lexeme.read c cs).text (Lexeme.read c cs).rest).tokens := by
  rw [tokens, next_of_cons h]
  exact dif_neg (kind_read_ne_eof c cs)

/-- What holds of an end of input, and of a lexeme before what it holds of, holds of all tokens. -/
theorem tokens_induction {P : Lexer → List Token → Prop}
    (ending : ∀ l, l.rest.dropWhile Text.isLayout = [] → P l [l.skipLayout.endToken])
    (token : ∀ l c cs ts, l.rest.dropWhile Text.isLayout = c :: cs →
      P (l.skipLayout.consume (Lexeme.read c cs).text (Lexeme.read c cs).rest) ts →
        P l (l.skipLayout.tokenOf (Lexeme.read c cs) :: ts)) (l : Lexer) : P l l.tokens := by
  induction hn : l.rest.length using Nat.strongRecOn generalizing l with
  | ind n ih =>
    cases hrest : l.rest.dropWhile Text.isLayout with
    | nil =>
      rw [tokens_of_nil hrest]
      exact ending l hrest
    | cons c cs =>
      have hskip := (List.dropWhile_sublist (l := l.rest) Text.isLayout).length_le
      rw [hrest, hn] at hskip
      rw [tokens_of_cons hrest]
      exact token l c cs _ hrest
        (ih _ (Nat.lt_of_lt_of_le (Lexeme.length_rest_read c cs) hskip) _ rfl)

end Lexer

/-- The tokens of a text have its pieces, and an end of input follows them. -/
theorem tokens_eq_scan (l : Lexer) :
    ∃ body ending, l.tokens = body ++ [ending] ∧ body.map Token.piece = scan l.rest ∧
      ending.kind = .eof ∧ ∀ t ∈ body, t.kind ≠ .eof := by
  induction l using Lexer.tokens_induction with
  | ending l hrest =>
    rw [(scan_of_dropWhile_eq hrest).trans scan_nil]
    exact ⟨[], _, rfl, rfl, rfl, List.forall_mem_nil _⟩
  | token l c cs ts hrest ih =>
    obtain ⟨body, ending, rfl, hpieces, hending, hbody⟩ := ih
    rw [scan_of_cons hrest]
    exact ⟨_ :: body, ending, rfl, congrArg (_ :: ·) hpieces, hending,
      List.forall_mem_cons.mpr ⟨kind_read_ne_eof c cs, hbody⟩⟩

/-- The tokens of a source text have the pieces of the text, and an end of input follows them. -/
theorem TokenList.exists_ofSource (source : String) :
    ∃ body ending, ofSource source = ⟨body ++ [ending]⟩ ∧
      body.map Token.piece = scan source.toList ∧ ending.kind = .eof ∧
      ∀ t ∈ body, t.kind ≠ .eof := by
  obtain ⟨body, ending, htokens, hpieces, hending, hbody⟩ := tokens_eq_scan (Lexer.ofString source)
  exact ⟨body, ending, congrArg TokenList.mk htokens, hpieces, hending, hbody⟩

/-! ## Lexemes and what may follow them -/

/-- No character of a word comes next, so a word or a numeral ends here. -/
def Apart (rest : List Char) : Prop := ∀ c ∈ rest.head?, isWordPart c = false

theorem Apart.nil : Apart [] := by
  rintro c ⟨⟩

theorem Apart.cons {c : Char} (h : isWordPart c = false) (cs : List Char) : Apart (c :: cs) := by
  intro d hd
  cases hd
  exact h

/-- A run of characters of a class is taken as a whole if none follows it. -/
theorem takeWhile_run {p : Char → Bool} {cs rest : List Char} (h : ∀ c ∈ cs, p c = true)
    (hrest : ∀ c ∈ rest.head?, p c = false) :
    (cs ++ rest).takeWhile p = cs ∧ (cs ++ rest).dropWhile p = rest := by
  rw [List.takeWhile_append_of_pos h, List.dropWhile_append_of_pos h]
  cases rest with
  | nil => exact ⟨List.append_nil cs, rfl⟩
  | cons c rest =>
    have hc : ¬p c = true := by
      rw [hrest c rfl]
      exact Bool.false_ne_true
    rw [List.takeWhile_cons_of_neg hc, List.dropWhile_cons_of_neg hc]
    exact ⟨List.append_nil cs, rfl⟩

/-- A text that is a word: a letter or an underscore, then letters, digits and underscores. -/
def IsWord (text : String) : Prop :=
  ∃ c cs, text.toList = c :: cs ∧ isWordStart c = true ∧ ∀ d ∈ cs, isWordPart d = true

theorem isLayout_of_not_isWordPart {c : Char} (h : isWordPart c = true) :
    Text.isLayout c = false := by
  cases hc : Text.isLayout c with
  | false => rfl
  | true =>
    simp only [Text.isLayout, Bool.or_eq_true, beq_iff_eq] at hc
    rcases hc with ((rfl | rfl) | rfl) | rfl <;> exact absurd h (by decide)

theorem isWordPart_of_isWordStart {c : Char} (h : isWordStart c = true) : isWordPart c = true := by
  simp only [isWordStart, isWordPart, Char.isAlphanum, Bool.or_eq_true] at h ⊢
  rcases h with h | h
  · exact .inl (.inl h)
  · exact .inr h

theorem isWordPart_of_isDigit {c : Char} (h : c.isDigit = true) : isWordPart c = true := by
  simp only [isWordPart, Char.isAlphanum, h, Bool.or_true, Bool.true_or]

/-- The digits stand before the letters and the underscore. -/
theorem not_isDigit_of_isWordStart {c : Char} (h : isWordStart c = true) : c.isDigit = false := by
  rw [← Bool.not_eq_true]
  intro hd
  have hnine : c.toNat ≤ 57 := (Char.isDigit_iff_toNat.mp hd).2
  have halpha : c.isAlpha = true ∨ (c == '_') = true := (Bool.or_eq_true _ _).mp h
  rcases halpha with h | h
  · have hcase : c.isUpper = true ∨ c.isLower = true := (Bool.or_eq_true _ _).mp h
    rcases hcase with h | h
    · have hle : 65 ≤ c.toNat := UInt32.le_iff_toNat_le.mp (of_decide_eq_true h).1
      omega
    · have hbounds : decide (c.val ≥ 'a'.val) = true ∧ decide (c.val ≤ 'z'.val) = true :=
        (Bool.and_eq_true _ _).mp h
      have hle : 97 ≤ c.toNat := UInt32.le_iff_toNat_le.mp (of_decide_eq_true hbounds.1)
      omega
  · rw [beq_iff_eq.mp h] at hd
    exact absurd hd (by decide)

/-- A word is read as a whole. -/
theorem scan_word {text : String} (h : IsWord text) {rest : List Char} (hrest : Apart rest) :
    scan (text.toList ++ rest) = (Kind.ofWord text, text) :: scan rest := by
  obtain ⟨c, cs, htext, hc, hcs⟩ := h
  have hdigit : ¬c.isDigit = true := by
    rw [not_isDigit_of_isWordStart hc]
    exact Bool.false_ne_true
  obtain ⟨htake, hdrop⟩ := takeWhile_run hcs hrest
  have hword : String.ofList (c :: cs) = text := by rw [← htext, String.ofList_toList]
  rw [htext, List.cons_append,
    scan_cons (isLayout_of_not_isWordPart (isWordPart_of_isWordStart hc))]
  unfold Lexeme.read
  rw [if_neg hdigit, if_pos hc, htake, hdrop, hword]
  unfold Lexeme.piece Lexeme.literal
  rw [if_neg (ofWord_ne .string nofun rfl text)]
  show (Kind.ofWord text, String.ofList (c :: cs)) :: scan rest = _
  rw [hword]

/-- A run of digits is read up to the first other character. -/
theorem scan_digits_of {c : Char} {cs rest : List Char} (h : ∀ d ∈ c :: cs, d.isDigit = true)
    (hrest : ∀ d ∈ rest.head?, d.isDigit = false) :
    scan (c :: cs ++ rest) = (.int, String.ofList (c :: cs)) :: scan rest := by
  have hc := h c List.mem_cons_self
  obtain ⟨htake, hdrop⟩ := takeWhile_run (fun d hd => h d (List.mem_cons_of_mem c hd)) hrest
  rw [List.cons_append, scan_cons (isLayout_of_not_isWordPart (isWordPart_of_isDigit hc))]
  unfold Lexeme.read
  rw [if_pos hc, htake, hdrop]
  rfl

/-- A run of digits is read as a whole. -/
theorem scan_digits {c : Char} {cs rest : List Char} (h : ∀ d ∈ c :: cs, d.isDigit = true)
    (hrest : Apart rest) :
    scan (c :: cs ++ rest) = (.int, String.ofList (c :: cs)) :: scan rest := by
  refine scan_digits_of h fun d hd => ?_
  rw [← Bool.not_eq_true]
  intro hdigit
  have hpart := isWordPart_of_isDigit hdigit
  rw [hrest d hd] at hpart
  cases hpart

theorem isStringPart_iff {c : Char} : isStringPart c = true ↔ '"' ≠ c := by
  rw [isStringPart, bne_iff_ne]
  exact ne_comm

/-- A quote is read up to the next quote. -/
theorem Lexeme.read_string {cs : List Char} (h : '"' ∉ cs) (rest : List Char) :
    Lexeme.read '"' (cs ++ '"' :: rest) = ⟨.string, '"' :: (cs ++ ['"']), rest⟩ := by
  have hcs : ∀ c ∈ cs, isStringPart c = true := by
    intro c hc
    rw [isStringPart_iff]
    rintro rfl
    exact h hc
  have hquote : ∀ c ∈ ('"' :: rest).head?, isStringPart c = false := by
    intro c hc
    cases hc
    rfl
  obtain ⟨htake, hdrop⟩ := takeWhile_run hcs hquote
  unfold Lexeme.read
  rw [if_neg (by decide), if_neg (by decide), if_pos rfl]
  unfold Lexeme.ofQuote
  rw [hdrop, htake]

/-- A string is read up to its closing quote. -/
theorem scan_string {cs : List Char} (h : '"' ∉ cs) (rest : List Char) :
    scan ('"' :: (cs ++ '"' :: rest)) = (.string, String.ofList cs) :: scan rest := by
  rw [scan_cons rfl, Lexeme.read_string h]
  unfold Lexeme.piece Lexeme.literal
  show (Kind.string, String.ofList (cs ++ ['"']).dropLast) :: scan rest = _
  rw [List.dropLast_concat]

/-! ## Symbols -/

theorem Lexeme.read_of_symbol {c : Char} {kind : Kind} (h : Kind.ofSymbol? c = some kind)
    (cs : List Char) : Lexeme.read c cs = Lexeme.ofSymbol c cs := by
  obtain ⟨-, hdigit, hstart, hquote, -⟩ := plain_of_ofSymbol? h
  rw [Lexeme.read, hdigit, hstart, if_neg Bool.false_ne_true, if_neg Bool.false_ne_true,
    if_neg hquote]

/-- A symbol of one character that the next one does not prolong. -/
theorem scan_symbol {c : Char} {kind : Kind} (h : Kind.ofSymbol? c = some kind)
    {rest : List Char} (hrest : ∀ d ∈ rest.head?, Kind.ofSymbolPair? c d = none) :
    scan (c :: rest) = (kind, String.ofList [c]) :: scan rest := by
  obtain ⟨hlayout, -, -, -, -, hstring, -⟩ := plain_of_ofSymbol? h
  have hread : Lexeme.read c rest = ⟨kind, [c], rest⟩ := by
    rw [Lexeme.read_of_symbol h]
    cases rest with
    | nil => rw [Lexeme.ofSymbol, h, Option.getD_some]
    | cons d rest =>
      rw [Lexeme.ofSymbol, hrest d rfl, h]
      rfl
  rw [scan_cons hlayout, hread]
  unfold Lexeme.piece Lexeme.literal
  rw [if_neg hstring]

theorem exists_ofSymbol?_of_pair {c d : Char} {kind : Kind}
    (h : Kind.ofSymbolPair? c d = some kind) : ∃ single, Kind.ofSymbol? c = some single := by
  rcases (plain_of_ofSymbolPair? h).1 with rfl | rfl
  · exact ⟨.assign, rfl⟩
  · exact ⟨.bang, rfl⟩

/-- A symbol of two characters. -/
theorem scan_symbolPair {c d : Char} {kind : Kind} (h : Kind.ofSymbolPair? c d = some kind)
    (rest : List Char) : scan (c :: d :: rest) = (kind, String.ofList [c, d]) :: scan rest := by
  obtain ⟨-, -, hstring, -⟩ := plain_of_ofSymbolPair? h
  obtain ⟨single, hsingle⟩ := exists_ofSymbol?_of_pair h
  have hread : Lexeme.read c (d :: rest) = ⟨kind, [c, d], rest⟩ := by
    rw [Lexeme.read_of_symbol hsingle, Lexeme.ofSymbol, h]
  rw [scan_cons (plain_of_ofSymbol? hsingle).1, hread]
  unfold Lexeme.piece Lexeme.literal
  rw [if_neg hstring]

/-! ## Stray characters -/

/-- Whether the language has no use for a character: no lexeme begins with it. -/
def isStray (c : Char) : Bool :=
  !Text.isLayout c && !c.isDigit && !isWordStart c && c != '"' && (Kind.ofSymbol? c).isNone

theorem isStray_iff {c : Char} : isStray c = true ↔ Text.isLayout c = false ∧
    c.isDigit = false ∧ isWordStart c = false ∧ c ≠ '"' ∧ Kind.ofSymbol? c = none := by
  simp [isStray, and_assoc]

/-- A stray character is a lexeme of its own. -/
theorem Lexeme.read_of_isStray {c : Char} (h : isStray c = true) (cs : List Char) :
    Lexeme.read c cs = ⟨.illegal, [c], cs⟩ := by
  obtain ⟨-, hdigit, hstart, hquote, hsymbol⟩ := isStray_iff.mp h
  have hpair : ∀ d, Kind.ofSymbolPair? c d = none := by
    intro d
    rw [Option.eq_none_iff_forall_ne_some]
    intro kind hk
    rcases (plain_of_ofSymbolPair? hk).1 with rfl | rfl <;> cases hsymbol
  unfold Lexeme.read
  rw [hdigit, hstart, if_neg Bool.false_ne_true, if_neg Bool.false_ne_true, if_neg hquote]
  cases cs with
  | nil => rw [Lexeme.ofSymbol, hsymbol, Option.getD_none]
  | cons d cs =>
    rw [Lexeme.ofSymbol, hpair, hsymbol]
    rfl

/-- A stray character is a token of its own. -/
theorem scan_stray {c : Char} (h : isStray c = true) (cs : List Char) :
    scan (c :: cs) = (.illegal, String.ofList [c]) :: scan cs := by
  rw [scan_cons (isStray_iff.mp h).1, Lexeme.read_of_isStray h]
  rfl

end Ember
