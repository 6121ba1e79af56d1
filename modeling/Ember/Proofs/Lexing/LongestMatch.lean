import Ember.Proofs.Canonical.Scan
import Mathlib.Data.List.TakeWhile

/-!
# The lexer takes the longest match

The tokens of the language are given by patterns: a table of symbols, runs of digits, words and
strings with both their quotes. `Scans` reads a text by them. It passes over layout and takes the
longest piece at the start of the text that has a pattern. Where there is none, a quote takes the
rest of the text with it and any other character stands alone, and both are illegal.

The lexer decides by the first character and never tries a pattern. It finds the same tokens all the
same (`TokenList.scans_ofSource`).
-/

namespace Ember

/-! ## Patterns -/

/-- The symbols of the language. -/
def symbols : List (String × Kind) :=
  [("==", .eq), ("!=", .notEq), ("=", .assign), ("+", .plus), ("-", .minus), ("!", .bang),
    ("*", .asterisk), ("/", .slash), ("<", .lt), (">", .gt), (",", .comma), (";", .semicolon),
    (":", .colon), ("(", .lParen), (")", .rParen), ("\x7b", .lBrace), ("\x7d", .rBrace),
    ("[", .lBracket), ("]", .rBracket)]

/-- The words that are not names. -/
def reservedWords : List (String × Kind) :=
  [("fn", .kwFn), ("let", .kwLet), ("true", .kwTrue), ("false", .kwFalse), ("if", .kwIf),
    ("else", .kwElse), ("return", .kwReturn)]

/-- The characters that may stand between tokens. -/
def layoutCharacters : List Char := [' ', '\t', '\r', '\n']

/-- The decimal digits. -/
def IsDigit (c : Char) : Prop := '0' ≤ c ∧ c ≤ '9'

/-- The letters of ASCII and the underscore. -/
def IsLetter (c : Char) : Prop := ('a' ≤ c ∧ c ≤ 'z') ∨ ('A' ≤ c ∧ c ≤ 'Z') ∨ c = '_'

/-- The texts of tokens, and the tokens they are. -/
inductive Pattern : List Char → Piece → Prop
  | symbol {text : String} {kind : Kind} (h : (text, kind) ∈ symbols) :
      Pattern text.toList (kind, text)
  | digits {c : Char} {cs : List Char} (h : ∀ d ∈ c :: cs, IsDigit d) :
      Pattern (c :: cs) (.int, String.ofList (c :: cs))
  | reserved {text : String} {kind : Kind} (h : (text, kind) ∈ reservedWords) :
      Pattern text.toList (kind, text)
  | name {c : Char} {cs : List Char} (hc : IsLetter c) (hcs : ∀ d ∈ cs, IsLetter d ∨ IsDigit d)
      (h : ∀ kind, (String.ofList (c :: cs), kind) ∉ reservedWords) :
      Pattern (c :: cs) (.ident, String.ofList (c :: cs))
  | string {cs : List Char} (h : '"' ∉ cs) :
      Pattern ('"' :: (cs ++ ['"'])) (.string, String.ofList cs)

/-- Of the texts that a text begins with and that have a pattern, this is the longest one. -/
def IsLongest (text cs : List Char) : Prop :=
  text <+: cs ∧ ∀ other p, Pattern other p → other <+: cs → other.length ≤ text.length

/-- How a text is read by the patterns. -/
inductive Scans : List Char → List Piece → Prop
  | done : Scans [] []
  | layout {c : Char} {cs : List Char} {ps : List Piece} (hc : c ∈ layoutCharacters)
      (h : Scans cs ps) : Scans (c :: cs) ps
  | token {text rest : List Char} {p : Piece} {ps : List Piece} (hp : Pattern text p)
      (hlongest : IsLongest text (text ++ rest)) (h : Scans rest ps) :
      Scans (text ++ rest) (p :: ps)
  | unclosed {cs : List Char} (h : '"' ∉ cs) :
      Scans ('"' :: cs) [(.illegal, String.ofList ('"' :: cs))]
  | character {c : Char} {cs : List Char} {ps : List Piece} (hlayout : c ∉ layoutCharacters)
      (hquote : c ≠ '"') (hnone : ∀ text p, Pattern text p → ¬text <+: c :: cs) (h : Scans cs ps) :
      Scans (c :: cs) ((.illegal, String.ofList [c]) :: ps)

/-! ## What the lexer asks of a character -/

theorem isLayout_iff {c : Char} : Text.isLayout c = true ↔ c ∈ layoutCharacters := by
  simp [Text.isLayout, layoutCharacters, or_assoc]

theorem isDigit_iff {c : Char} : c.isDigit = true ↔ IsDigit c :=
  Bool.and_eq_true_iff.trans (and_congr decide_eq_true_iff decide_eq_true_iff)

theorem isWordStart_iff {c : Char} : isWordStart c = true ↔ IsLetter c := by
  have hupper : c.isUpper = true ↔ 'A' ≤ c ∧ c ≤ 'Z' := decide_eq_true_iff
  have hlower : c.isLower = true ↔ 'a' ≤ c ∧ c ≤ 'z' :=
    Bool.and_eq_true_iff.trans (and_congr decide_eq_true_iff decide_eq_true_iff)
  show ((c.isUpper || c.isLower) || c == '_') = true ↔ _
  rw [Bool.or_eq_true, Bool.or_eq_true, hupper, hlower, beq_iff_eq, or_assoc, or_left_comm]
  rfl

theorem isWordPart_iff {c : Char} : isWordPart c = true ↔ IsLetter c ∨ IsDigit c := by
  rw [← isWordStart_iff, ← isDigit_iff]
  simp only [isWordPart, isWordStart, Char.isAlphanum, Bool.or_eq_true]
  exact or_right_comm

/-! ## The tables -/

theorem symbol_cases : ∀ p ∈ symbols,
    (∃ c, p.1.toList = [c] ∧ Kind.ofSymbol? c = some p.2) ∨
      ∃ c d, p.1.toList = [c, d] ∧ Kind.ofSymbolPair? c d = some p.2 := by
  simp only [symbols, List.forall_mem_cons]
  refine ⟨.inr ⟨_, _, rfl, rfl⟩, .inr ⟨_, _, rfl, rfl⟩, ?_⟩
  iterate 17
    refine ⟨.inl ⟨_, rfl, rfl⟩, ?_⟩
  exact List.forall_mem_nil _

theorem mem_symbols_of_ofSymbol? {c : Char} {kind : Kind} (h : Kind.ofSymbol? c = some kind) :
    (String.ofList [c], kind) ∈ symbols := by
  unfold Kind.ofSymbol? at h
  iterate 17
    rcases of_ite_eq_some h with ⟨rfl, rfl⟩ | h
    · decide
  cases h

theorem mem_symbols_of_ofSymbolPair? {c d : Char} {kind : Kind}
    (h : Kind.ofSymbolPair? c d = some kind) : (String.ofList [c, d], kind) ∈ symbols := by
  obtain ⟨rfl | rfl, rfl, -⟩ := plain_of_ofSymbolPair? h
  · cases h
    decide
  · cases h
    decide

theorem mem_reservedWords_iff {word : String} {kind : Kind} :
    (word, kind) ∈ reservedWords ↔ Kind.ofKeyword? word = some kind := by
  constructor
  · have h : ∀ p ∈ reservedWords, Kind.ofKeyword? p.1 = some p.2 := by decide
    exact h (word, kind)
  · intro h
    unfold Kind.ofKeyword? at h
    iterate 7
      rcases of_ite_eq_some h with ⟨rfl, rfl⟩ | h
      · decide
    cases h

theorem isWord_of_mem_reservedWords : ∀ p ∈ reservedWords, IsWord p.1 := by
  simp only [reservedWords, List.forall_mem_cons]
  iterate 7
    refine ⟨⟨_, _, rfl, rfl, List.all_eq_true.mp rfl⟩, ?_⟩
  exact List.forall_mem_nil _

/-! ## What has a pattern -/

namespace Pattern

variable {c d : Char} {cs text : List Char} {p : Piece} {kind : Kind}

theorem of_ofSymbol? (h : Kind.ofSymbol? c = some kind) :
    Pattern [c] (kind, String.ofList [c]) := by
  have hp := symbol (mem_symbols_of_ofSymbol? h)
  rwa [String.toList_ofList] at hp

theorem of_ofSymbolPair? (h : Kind.ofSymbolPair? c d = some kind) :
    Pattern [c, d] (kind, String.ofList [c, d]) := by
  have hp := symbol (mem_symbols_of_ofSymbolPair? h)
  rwa [String.toList_ofList] at hp

/-- A word is a name or a reserved word. -/
theorem of_isWord {word : String} (h : IsWord word) :
    Pattern word.toList (Kind.ofWord word, word) := by
  unfold Kind.ofWord
  cases hkeyword : Kind.ofKeyword? word with
  | some kind => exact reserved (mem_reservedWords_iff.mpr hkeyword)
  | none =>
    obtain ⟨c, cs, hword, hc, hcs⟩ := h
    have hname : ∀ kind, (String.ofList (c :: cs), kind) ∉ reservedWords := by
      intro kind hmem
      rw [← hword, String.ofList_toList, mem_reservedWords_iff, hkeyword] at hmem
      cases hmem
    have hp := name (isWordStart_iff.mp hc) (fun d hd => isWordPart_iff.mp (hcs d hd)) hname
    rwa [← hword, String.ofList_toList] at hp

theorem ne_nil (h : Pattern text p) : text ≠ [] := by
  cases h with
  | @symbol text kind h =>
    have htable : ∀ p ∈ symbols, p.1.toList ≠ [] := by decide
    exact htable _ h
  | @reserved text kind h =>
    have htable : ∀ p ∈ reservedWords, p.1.toList ≠ [] := by decide
    exact htable _ h
  | digits _ | name _ _ _ | string _ => exact List.cons_ne_nil _ _

theorem kind_ne_illegal (h : Pattern text p) : p.1 ≠ .illegal := by
  cases h with
  | symbol h =>
    have htable : ∀ p ∈ symbols, p.2 ≠ .illegal := by decide
    exact htable _ h
  | reserved h =>
    have htable : ∀ p ∈ reservedWords, p.2 ≠ .illegal := by decide
    exact htable _ h
  | digits _ | name _ _ _ | string _ => exact nofun

end Pattern

/-! ## The longest match -/

namespace IsLongest

variable {text rest : List Char} {c : Char}

/-- With the next character, the longest match has no pattern. -/
theorem not_pattern_concat (h : IsLongest text (text ++ rest)) (hc : c ∈ rest.head?) (p : Piece) :
    ¬Pattern (text ++ [c]) p := by
  intro hp
  obtain ⟨cs, rfl⟩ : ∃ cs, rest = c :: cs := by
    cases rest with
    | nil => cases hc
    | cons d cs =>
      cases hc
      exact ⟨cs, rfl⟩
  have hle := h.2 _ p hp ⟨cs, by rw [List.append_assoc, List.singleton_append]⟩
  rw [List.length_append, List.length_singleton] at hle
  omega

/-- A word that is the longest match ends where no character of a word follows. -/
theorem apart {word : String} (h : IsLongest word.toList (word.toList ++ rest))
    (hword : IsWord word) : Apart rest := by
  intro c hc
  rw [← Bool.not_eq_true]
  intro hpart
  obtain ⟨d, ds, hds, hd, hpartds⟩ := hword
  have hlonger : IsWord (String.ofList (word.toList ++ [c])) := by
    refine ⟨d, ds ++ [c], ?_, hd, ?_⟩
    · rw [String.toList_ofList, hds, List.cons_append]
    · rw [List.forall_mem_append, List.forall_mem_singleton]
      exact ⟨hpartds, hpart⟩
  have hp := Pattern.of_isWord hlonger
  rw [String.toList_ofList] at hp
  exact h.not_pattern_concat hc _ hp

end IsLongest

/-- If a text begins with something that has a pattern, one of these is the longest. -/
theorem Pattern.exists_isLongest {text cs : List Char} {p : Piece} (hp : Pattern text p)
    (h : text <+: cs) : ∃ text p, Pattern text p ∧ IsLongest text cs := by
  induction hn : cs.length - text.length using Nat.strongRecOn generalizing text p with
  | ind n ih =>
    by_cases hlonger : ∃ other q, Pattern other q ∧ other <+: cs ∧ text.length < other.length
    · obtain ⟨other, q, hq, hother, hlt⟩ := hlonger
      have hle := hother.length_le
      exact ih _ (by omega) hq hother rfl
    · refine ⟨text, p, hp, h, fun other q hq hother => Nat.le_of_not_lt fun hlt => ?_⟩
      exact hlonger ⟨other, q, hq, hother, hlt⟩

/-! ## Both readings are the same -/

/-- What the lexer reads first is the longest match, where there is one. -/
theorem scan_of_isLongest {text rest : List Char} {p : Piece} (hp : Pattern text p)
    (h : IsLongest text (text ++ rest)) : scan (text ++ rest) = p :: scan rest := by
  have hword : ∀ {word : String}, IsWord word → text = word.toList →
      scan (text ++ rest) = (Kind.ofWord word, word) :: scan rest := by
    rintro word hword rfl
    exact scan_word hword (h.apart hword)
  cases hp with
  | @symbol word kind hmem =>
    rcases symbol_cases _ hmem with ⟨c, hc, hkind⟩ | ⟨c, d, hcd, hkind⟩
    · have hliteral : word = String.ofList [c] := by rw [← String.ofList_toList (s := word), hc]
      rw [hc] at h ⊢
      rw [hliteral]
      refine scan_symbol hkind fun d hd => ?_
      cases hpair : Kind.ofSymbolPair? c d with
      | none => rfl
      -- A second mark would make a longer match.
      | some k => exact absurd (Pattern.of_ofSymbolPair? hpair) (h.not_pattern_concat hd _)
    · have hliteral : word = String.ofList [c, d] := by
        rw [← String.ofList_toList (s := word), hcd]
      rw [hcd, hliteral]
      exact scan_symbolPair hkind rest
  | @digits c cs hdigits =>
    refine scan_digits_of (fun d hd => isDigit_iff.mpr (hdigits d hd)) fun d hd => ?_
    rw [← Bool.not_eq_true]
    intro hdigit
    -- Another digit would make a longer match as well.
    refine h.not_pattern_concat hd _ (.digits ?_)
    show ∀ e ∈ c :: cs ++ [d], IsDigit e
    rw [List.forall_mem_append, List.forall_mem_singleton]
    exact ⟨hdigits, isDigit_iff.mp hdigit⟩
  | @reserved word kind hmem =>
    rw [hword (isWord_of_mem_reservedWords _ hmem) rfl, Kind.ofWord,
      mem_reservedWords_iff.mp hmem]
    rfl
  | @name c cs hc hcs hname =>
    have hisWord : IsWord (String.ofList (c :: cs)) := ⟨c, cs, String.toList_ofList,
      isWordStart_iff.mpr hc, fun d hd => isWordPart_iff.mpr (hcs d hd)⟩
    have hkeyword : Kind.ofKeyword? (String.ofList (c :: cs)) = none :=
      Option.eq_none_iff_forall_ne_some.mpr fun kind hk =>
        hname kind (mem_reservedWords_iff.mpr hk)
    rw [hword hisWord String.toList_ofList.symm, Kind.ofWord, hkeyword]
    rfl
  | @string cs hcs =>
    rw [List.cons_append, List.append_assoc]
    exact scan_string hcs rest

/-- A quote without a partner takes the rest of the text with it. -/
theorem Lexeme.read_unclosed {cs : List Char} (h : '"' ∉ cs) :
    Lexeme.read '"' cs = ⟨.illegal, '"' :: cs, []⟩ := by
  have hdrop : cs.dropWhile isStringPart = [] := by
    refine List.dropWhile_eq_nil_iff.mpr fun c hc => isStringPart_iff.mpr ?_
    rintro rfl
    exact h hc
  unfold Lexeme.read
  rw [if_neg (by decide), if_neg (by decide), if_pos rfl, Lexeme.ofQuote, hdrop]

theorem scan_unclosed {cs : List Char} (h : '"' ∉ cs) :
    scan ('"' :: cs) = [(.illegal, String.ofList ('"' :: cs))] := by
  rw [scan_cons rfl, Lexeme.read_unclosed h]
  show _ :: scan [] = _
  rw [scan_nil]
  rfl

/-- A character that nothing with a pattern begins with is a token of its own. -/
theorem scan_character {c : Char} {cs : List Char} (hlayout : Text.isLayout c = false)
    (hquote : c ≠ '"') (hnone : ∀ text p, Pattern text p → ¬text <+: c :: cs) :
    scan (c :: cs) = (.illegal, String.ofList [c]) :: scan cs := by
  have hdigit : ¬c.isDigit = true := fun hc => hnone [c] _
    (.digits (List.forall_mem_singleton.mpr (isDigit_iff.mp hc))) ⟨cs, rfl⟩
  have hstart : ¬isWordStart c = true := fun hc => hnone _ _
    (.of_isWord ⟨c, [], String.toList_ofList, hc, List.forall_mem_nil _⟩)
    (by rw [String.toList_ofList]; exact ⟨cs, rfl⟩)
  have hsymbol : Kind.ofSymbol? c = none := Option.eq_none_iff_forall_ne_some.mpr fun kind hk =>
    hnone [c] _ (.of_ofSymbol? hk) ⟨cs, rfl⟩
  exact scan_stray (isStray_iff.mpr ⟨hlayout, Bool.not_eq_true _ ▸ hdigit,
    Bool.not_eq_true _ ▸ hstart, hquote, hsymbol⟩) cs

namespace Scans

variable {cs : List Char} {ps : List Piece}

theorem scan_eq (h : Scans cs ps) : scan cs = ps := by
  induction h with
  | done => exact scan_nil
  | layout hc _ ih => rw [scan_layout (isLayout_iff.mpr hc), ih]
  | token hp hlongest _ ih => rw [scan_of_isLongest hp hlongest, ih]
  | unclosed h => exact scan_unclosed h
  | character hlayout hquote hnone _ ih =>
    rw [scan_character (Bool.not_eq_true _ ▸ mt isLayout_iff.mp hlayout) hquote hnone, ih]

/-- Every text can be read by the patterns. -/
theorem exists_of (cs : List Char) : ∃ ps, Scans cs ps := by
  induction hn : cs.length using Nat.strongRecOn generalizing cs with
  | ind n ih =>
    cases cs with
    | nil => exact ⟨[], .done⟩
    | cons c cs =>
      by_cases hlayout : c ∈ layoutCharacters
      · obtain ⟨ps, hps⟩ := ih _ (by rw [← hn]; exact Nat.lt_succ_self _) cs rfl
        exact ⟨ps, .layout hlayout hps⟩
      by_cases hpattern : ∃ text p, Pattern text p ∧ text <+: c :: cs
      · obtain ⟨_, _, hp, hprefix⟩ := hpattern
        obtain ⟨text, p, hp, hlongest⟩ := hp.exists_isLongest hprefix
        obtain ⟨rest, hrest⟩ := hlongest.1
        have hlt : rest.length < n := by
          have hpos := List.length_pos_iff.mpr hp.ne_nil
          rw [← hn, ← hrest, List.length_append]
          omega
        obtain ⟨ps, hps⟩ := ih _ hlt rest rfl
        rw [← hrest] at hlongest ⊢
        exact ⟨p :: ps, .token hp hlongest hps⟩
      have hnone : ∀ text p, Pattern text p → ¬text <+: c :: cs :=
        fun text p hp hprefix => hpattern ⟨text, p, hp, hprefix⟩
      by_cases hquote : c = '"'
      · subst hquote
        refine ⟨_, .unclosed fun hmem => ?_⟩
        -- A partner would close the quote, and a closed string has a pattern.
        obtain ⟨before, after, rfl, hbefore⟩ := List.eq_append_cons_of_mem hmem
        refine hnone _ _ (.string hbefore) ⟨after, ?_⟩
        rw [List.cons_append, List.append_assoc, List.singleton_append]
      · obtain ⟨ps, hps⟩ := ih _ (by rw [← hn]; exact Nat.lt_succ_self _) cs rfl
        exact ⟨_, .character hlayout hquote hnone hps⟩

theorem iff_scan : Scans cs ps ↔ ps = scan cs := by
  refine ⟨fun h => h.scan_eq.symm, ?_⟩
  rintro rfl
  obtain ⟨ps, hps⟩ := exists_of cs
  rwa [hps.scan_eq]

/-- An illegal piece with a quote in front is the last one, and nothing is left behind it. -/
theorem unclosed_of_illegal (h : Scans cs ps) {before after : List Piece} {literal : String}
    (hps : ps = before ++ (.illegal, literal) :: after) (hquote : literal.toList.head? = some '"') :
    after = [] ∧ literal.toList <:+ cs ∧ ∃ ds, literal.toList = '"' :: ds ∧ '"' ∉ ds := by
  induction h generalizing before with
  | done =>
    -- Only a character that starts no token is illegal too, and it is no quote.
    cases before <;> cases hps
  | layout _ _ ih =>
    obtain ⟨hafter, hsuffix, hliteral⟩ := ih hps
    exact ⟨hafter, hsuffix.trans (List.suffix_cons _ _), hliteral⟩
  | token hp _ _ ih =>
    cases before with
    | nil =>
      cases hps
      exact absurd rfl hp.kind_ne_illegal
    | cons p before =>
      obtain ⟨hafter, hsuffix, hliteral⟩ := ih (List.cons.inj hps).2
      exact ⟨hafter, hsuffix.trans (List.suffix_append _ _), hliteral⟩
  | @unclosed cs h =>
    cases before with
    | nil =>
      cases hps
      rw [String.toList_ofList]
      exact ⟨rfl, List.suffix_refl _, cs, rfl, h⟩
    | cons p before => cases before <;> cases hps
  | character _ hne _ _ ih =>
    cases before with
    | nil =>
      cases hps
      rw [String.toList_ofList] at hquote
      exact absurd (Option.some.inj hquote) hne
    | cons p before =>
      obtain ⟨hafter, hsuffix, hliteral⟩ := ih (List.cons.inj hps).2
      exact ⟨hafter, hsuffix.trans (List.suffix_cons _ _), hliteral⟩

end Scans

/-! ## The tokens of a text -/

theorem map_piece_tokens (l : Lexer) :
    l.tokens.map Token.piece = scan l.rest ++ [(.eof, "")] := by
  induction l using Lexer.tokens_induction with
  | ending l hrest =>
    rw [(scan_of_dropWhile_eq hrest).trans scan_nil]
    rfl
  | token l c cs ts hrest ih =>
    rw [scan_of_cons hrest, List.map_cons, ih]
    rfl

/--
The tokens of a text, apart from their places, are those that the patterns give, and an end of
input. There is one way to read a text by the patterns. An illegal token with a quote in front is a
quote without a partner and reaches to the end of the text; the end of input comes next.
-/
theorem TokenList.scans_ofSource (source : String) :
    ∃ ps, (ofSource source).tokens.map Token.piece = ps ++ [(.eof, "")] ∧
      (∀ qs, Scans source.toList qs ↔ qs = ps) ∧
      ∀ before t after, (ofSource source).tokens = before ++ t :: after → t.kind = .illegal →
        t.literal.toList.head? = some '"' →
        after.map Token.piece = [(.eof, "")] ∧ t.literal.toList <:+ source.toList ∧
          ∃ cs, t.literal.toList = '"' :: cs ∧ '"' ∉ cs := by
  have hpieces : (ofSource source).tokens.map Token.piece = scan source.toList ++ [(.eof, "")] :=
    map_piece_tokens (.ofString source)
  refine ⟨scan source.toList, hpieces, fun _ => Scans.iff_scan, ?_⟩
  intro before t after htokens hkind hquote
  rw [htokens, List.map_append, List.map_cons] at hpieces
  rcases List.eq_nil_or_concat after with rfl | ⟨between, ending, rfl⟩
  · obtain ⟨-, hlast⟩ := List.append_inj' hpieces rfl
    have heof : t.kind = .eof := congrArg Prod.fst (List.cons.inj hlast).1
    rw [hkind] at heof
    cases heof
  · rw [List.concat_eq_append, List.map_append] at hpieces ⊢
    rw [← List.cons_append, ← List.append_assoc] at hpieces
    obtain ⟨hscan, hlast⟩ := List.append_inj' hpieces rfl
    have hpiece : t.piece = (.illegal, t.literal) := congrArg (·, t.literal) hkind
    rw [hpiece] at hscan
    obtain ⟨hbetween, hsuffix, hliteral⟩ :=
      (Scans.iff_scan.mpr rfl).unclosed_of_illegal hscan.symm hquote
    refine ⟨?_, hsuffix, hliteral⟩
    rw [hbetween, hlast]
    rfl

example : (TokenList.ofSource "fnord!==\"").tokens.map Token.piece =
    [(.ident, "fnord"), (.notEq, "!="), (.assign, "="), (.illegal, "\""), (.eof, "")] := by
  decide +kernel

end Ember
