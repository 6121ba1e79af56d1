import Ember.Proofs.Lexing.LongestMatch

/-!
# What is granted of the raw lexer

A raw lexer knows declarations only: the texts of symbols, numbers, strings, strings that are not
closed, and words (`RawToken.Matches`). How it tries them is not said here. It is a parameter, a
`Matcher`, and what is granted of it has a name each (`Matcher.Granted`): it comes to an end only
where nothing but layout is left, it passes over layout only, of the declared texts it takes the
longest, and an error is made of characters at which nothing declared begins. How many of them it
makes one error of is not granted.

That is enough to know what it finds (`Matcher.Granted.find_cases`): what `Lexeme.read` reads, or a
run of stray characters. And it is not too much. The lexemes themselves, with stray characters in
runs of any length, are such a matcher (`Matcher.Granted.ofRuns`).
-/

namespace Ember

/-! ## Declarations -/

/-- What is declared to a raw lexer. -/
inductive RawToken where
  | symbol (kind : Kind)
  | int
  | string
  /-- A quote without a partner, and what follows it. -/
  | unterminated
  | ident
deriving DecidableEq

namespace RawToken

/-- The texts that are declared. -/
inductive Matches : RawToken → List Char → Prop
  | symbol {text : String} {kind : Kind} (h : (text, kind) ∈ symbols) :
      Matches (symbol kind) text.toList
  | int {c : Char} {cs : List Char} (h : ∀ d ∈ c :: cs, IsDigit d) : Matches int (c :: cs)
  | string {cs : List Char} (h : '"' ∉ cs) : Matches string ('"' :: (cs ++ ['"']))
  | unterminated {cs : List Char} (h : '"' ∉ cs) : Matches unterminated ('"' :: cs)
  | ident {c : Char} {cs : List Char} (hc : IsLetter c) (hcs : ∀ d ∈ cs, IsLetter d ∨ IsDigit d) :
      Matches ident (c :: cs)

/-- The kind of the token that is made of a text. Reserved words are declared as words. -/
def kind (text : List Char) : RawToken → Kind
  | symbol kind => kind
  | int => .int
  | string => .string
  | unterminated => .illegal
  | ident => .ofWord (String.ofList text)

/-- What the token keeps of the text: a string loses its quotes. -/
def literal (text : List Char) : RawToken → String
  | string => String.ofList text.tail.dropLast
  | _ => String.ofList text

/-- The declaration of a lexeme, by its first character. -/
def ofLexeme (c : Char) (l : Lexeme) : RawToken :=
  if c.isDigit then int
  else if isWordStart c then ident
  else if c = '"' then if l.kind = .string then string else unterminated
  else symbol l.kind

end RawToken

/-! ## Matchers -/

/-- What is found behind layout. -/
inductive Found where
  | token (t : RawToken) (text : List Char)
  /-- Characters that no token begins with. -/
  | error (run : List Char)

/-- The characters that were found. -/
def Found.text : Found → List Char
  | token _ text => text
  | error run => run

/-- Something that is found in a text, in front of it the layout that is passed over. -/
structure Find (cs : List Char) where
  layout : List Char
  found : Found
  rest : List Char
  split : cs = layout ++ (found.text ++ rest)
  text_ne_nil : found.text ≠ []

/-- What is left is less than there was. -/
theorem Find.length_rest {cs : List Char} (f : Find cs) : f.rest.length < cs.length := by
  have hpos := List.length_pos_iff.mpr f.text_ne_nil
  have hlength := congrArg List.length f.split
  simp only [List.length_append] at hlength
  omega

/-- What is found first in a text, if anything is. -/
abbrev Matcher := (cs : List Char) → Option (Find cs)

namespace Matcher

/-- What is granted of a matcher. -/
structure Granted (matcher : Matcher) : Prop where
  /-- It comes to an end only where nothing but layout is left. -/
  ended : ∀ {cs}, matcher cs = none → ∀ c ∈ cs, c ∈ layoutCharacters
  /-- It passes over layout only. -/
  layout : ∀ {cs f}, matcher cs = some f → ∀ c ∈ f.layout, c ∈ layoutCharacters
  /-- A token is declared, and nothing longer that the text begins with is. -/
  longest : ∀ {cs f t text}, matcher cs = some f → f.found = .token t text → t.Matches text ∧
    ∀ {u : RawToken} {other}, u.Matches other → other <+: text ++ f.rest →
      other.length ≤ text.length
  /-- An error is made of characters that are no layout and at which nothing declared begins. -/
  error : ∀ {cs f run}, matcher cs = some f → f.found = .error run →
    ∀ before c after, run = before ++ c :: after → c ∉ layoutCharacters ∧
      ∀ {u : RawToken} {other}, u.Matches other → ¬other <+: c :: (after ++ f.rest)

/-- Finds what `Lexeme.read` reads, and as many stray characters at once as `more` allows. -/
def ofRuns (more : List Char → Nat) : Matcher := fun cs =>
  match h : cs.dropWhile Text.isLayout with
  | [] => none
  | c :: ds =>
    have hsplit : cs = cs.takeWhile Text.isLayout ++ (c :: ds) :=
      h ▸ List.takeWhile_append_dropWhile.symm
    if isStray c then
      let others := (ds.takeWhile isStray).take (more ds)
      have hothers : others ++ ds.drop others.length = ds := List.prefix_iff_eq_append.mp
        ((List.take_prefix _ _).trans (List.takeWhile_prefix isStray))
      some ⟨cs.takeWhile Text.isLayout, .error (c :: others), ds.drop others.length,
        hsplit.trans (by rw [Found.text, List.cons_append, hothers]), List.cons_ne_nil _ _⟩
    else
      let l := Lexeme.read c ds
      some ⟨cs.takeWhile Text.isLayout, .token (.ofLexeme c l) l.text, l.rest,
        hsplit.trans (by rw [Found.text, Lexeme.text_append_rest]), Lexeme.text_ne_nil c ds⟩

end Matcher

/-! ## What is read is the longest declared text -/

namespace Lexeme

variable {c : Char}

theorem read_of_isDigit (h : c.isDigit = true) (cs : List Char) : read c cs =
    ⟨.int, c :: cs.takeWhile Char.isDigit, cs.dropWhile Char.isDigit⟩ := if_pos h

theorem read_of_isWordStart (h : isWordStart c = true) (cs : List Char) : read c cs =
    ⟨.ofWord (String.ofList (c :: cs.takeWhile isWordPart)), c :: cs.takeWhile isWordPart,
      cs.dropWhile isWordPart⟩ := by
  have hdigit : ¬c.isDigit = true := by simp [not_isDigit_of_isWordStart h]
  rw [read, if_neg hdigit, if_pos h]

/-- A quote has a partner, the next quote, or it takes the rest of the text with it. -/
theorem read_quote_cases (cs : List Char) :
    (∃ ds rest, '"' ∉ ds ∧ cs = ds ++ '"' :: rest ∧
        read '"' cs = ⟨.string, '"' :: (ds ++ ['"']), rest⟩) ∨
      '"' ∉ cs ∧ read '"' cs = ⟨.illegal, '"' :: cs, []⟩ := by
  by_cases hmem : '"' ∈ cs
  · obtain ⟨ds, rest, rfl, hds⟩ := List.eq_append_cons_of_mem hmem
    exact .inl ⟨ds, rest, hds, rfl, read_string hds rest⟩
  · exact .inr ⟨hmem, read_unclosed hmem⟩

end Lexeme

namespace RawToken

variable {c : Char} {cs text other : List Char} {t u : RawToken} {kind : Kind}

theorem ofLexeme_of_isDigit (h : c.isDigit = true) (l : Lexeme) : ofLexeme c l = int := if_pos h

theorem ofLexeme_of_isWordStart (h : isWordStart c = true) (l : Lexeme) : ofLexeme c l = ident := by
  have hdigit : ¬c.isDigit = true := by simp [not_isDigit_of_isWordStart h]
  rw [ofLexeme, if_neg hdigit, if_pos h]

theorem ofLexeme_of_symbol (h : Kind.ofSymbol? c = some kind) (l : Lexeme) :
    ofLexeme c l = symbol l.kind := by
  obtain ⟨-, hdigit, hstart, hquote, -⟩ := plain_of_ofSymbol? h
  rw [ofLexeme, hdigit, hstart, if_neg Bool.false_ne_true, if_neg Bool.false_ne_true,
    if_neg hquote]

/-- The text of the lexeme is declared, and the token made of it is that of the lexeme. -/
structure Makes (t : RawToken) (l : Lexeme) : Prop where
  declared : t.Matches l.text
  kind_eq : t.kind l.text = l.kind
  literal_eq : t.literal l.text = l.literal

theorem makes_symbol (h : Kind.ofSymbol? c = some kind) (cs : List Char) :
    (symbol (Lexeme.ofSymbol c cs).kind).Makes (Lexeme.ofSymbol c cs) where
  declared := by
    have hsingle := Matches.symbol (mem_symbols_of_ofSymbol? h)
    rw [String.toList_ofList] at hsingle
    cases cs with
    | nil =>
      rw [Lexeme.ofSymbol, h]
      exact hsingle
    | cons d ds =>
      rw [Lexeme.ofSymbol, h]
      cases hpair : Kind.ofSymbolPair? c d with
      | none => exact hsingle
      | some kind =>
        have hdouble := Matches.symbol (mem_symbols_of_ofSymbolPair? hpair)
        rwa [String.toList_ofList] at hdouble
  kind_eq := rfl
  literal_eq := by
    rw [Lexeme.literal, if_neg (kind_ofSymbol_ne c cs).1]
    rfl

/-- What is read is declared, unless it is a stray character. -/
theorem makes_read (hlayout : Text.isLayout c = false) (hstray : isStray c = false)
    (cs : List Char) : (ofLexeme c (Lexeme.read c cs)).Makes (Lexeme.read c cs) := by
  by_cases hdigit : c.isDigit = true
  · rw [ofLexeme_of_isDigit hdigit, Lexeme.read_of_isDigit hdigit]
    refine ⟨.int (List.forall_mem_cons.mpr ⟨isDigit_iff.mp hdigit, fun d hd => ?_⟩), rfl, rfl⟩
    exact isDigit_iff.mp (List.mem_takeWhile_imp hd)
  by_cases hstart : isWordStart c = true
  · rw [ofLexeme_of_isWordStart hstart, Lexeme.read_of_isWordStart hstart]
    refine ⟨.ident (isWordStart_iff.mp hstart) fun d hd => ?_, rfl, ?_⟩
    · exact isWordPart_iff.mp (List.mem_takeWhile_imp hd)
    · rw [Lexeme.literal, if_neg (ofWord_ne .string nofun rfl _)]
      rfl
  by_cases hquote : c = '"'
  · subst hquote
    rcases Lexeme.read_quote_cases cs with ⟨ds, rest, hds, rfl, hread⟩ | ⟨hcs, hread⟩
    · rw [hread]
      exact ⟨.string hds, rfl, rfl⟩
    · rw [hread]
      exact ⟨.unterminated hcs, rfl, rfl⟩
  cases hkind : Kind.ofSymbol? c with
  | none =>
    rw [← Bool.not_eq_true, isStray_iff] at hstray
    exact absurd ⟨hlayout, Bool.not_eq_true _ ▸ hdigit, Bool.not_eq_true _ ▸ hstart, hquote, hkind⟩
      hstray
  | some kind =>
    rw [ofLexeme_of_symbol hkind, Lexeme.read_of_symbol hkind]
    exact makes_symbol hkind cs

/-- A symbol begins with a character that is a symbol. -/
theorem exists_of_mem_symbols {word : String} (h : (word, kind) ∈ symbols) :
    ∃ c single, Kind.ofSymbol? c = some single ∧ (word.toList = [c] ∧ single = kind ∨
      ∃ d, word.toList = [c, d] ∧ Kind.ofSymbolPair? c d = some kind) := by
  rcases symbol_cases _ h with ⟨c, hword, hkind⟩ | ⟨c, d, hword, hkind⟩
  · exact ⟨c, kind, hkind, .inl ⟨hword, rfl⟩⟩
  · obtain ⟨single, hsingle⟩ := exists_ofSymbol?_of_pair hkind
    exact ⟨c, single, hsingle, .inr ⟨d, hword, hkind⟩⟩

/-- No layout and no stray character is where something that is declared begins. -/
theorem Matches.head (h : t.Matches text) :
    ∃ c cs, text = c :: cs ∧ Text.isLayout c = false ∧ isStray c = false := by
  have hstray : ∀ {c : Char}, (c.isDigit = true ∨ isWordStart c = true ∨ c = '"' ∨
      ∃ kind, Kind.ofSymbol? c = some kind) → isStray c = false := by
    intro c hc
    rw [← Bool.not_eq_true, isStray_iff]
    rintro ⟨-, hdigit, hstart, hquote, hsymbol⟩
    simp [hdigit, hstart, hquote, hsymbol] at hc
  cases h with
  | symbol h =>
    obtain ⟨c, single, hc, htext⟩ := exists_of_mem_symbols h
    have hlayout := (plain_of_ofSymbol? hc).1
    rcases htext with ⟨htext, -⟩ | ⟨d, htext, -⟩
    · exact ⟨c, [], htext, hlayout, hstray (.inr (.inr (.inr ⟨_, hc⟩)))⟩
    · exact ⟨c, [d], htext, hlayout, hstray (.inr (.inr (.inr ⟨_, hc⟩)))⟩
  | @int c cs h =>
    have hc := isDigit_iff.mpr (h c List.mem_cons_self)
    exact ⟨c, cs, rfl, isLayout_of_not_isWordPart (isWordPart_of_isDigit hc), hstray (.inl hc)⟩
  | @ident c cs hc _ =>
    have hc := isWordStart_iff.mpr hc
    exact ⟨c, cs, rfl, isLayout_of_not_isWordPart (isWordPart_of_isWordStart hc),
      hstray (.inr (.inl hc))⟩
  | string _ | unterminated _ => exact ⟨_, _, rfl, rfl, rfl⟩

theorem length_le_takeWhile {p : Char → Bool} {ds : List Char} (h : ds <+: cs)
    (hds : ∀ d ∈ ds, p d = true) : ds.length ≤ (cs.takeWhile p).length := by
  obtain ⟨rest, rfl⟩ := h
  rw [List.takeWhile_append_of_pos hds, List.length_append]
  exact Nat.le_add_right _ _

theorem length_le_of_not_mem {ds es rest : List Char} (h : ds <+: es ++ '"' :: rest)
    (hds : '"' ∉ ds) : ds.length ≤ es.length := by
  rcases List.prefix_or_prefix_of_prefix h (List.prefix_append es _) with hle | ⟨more, rfl⟩
  · exact hle.length_le
  · rw [List.prefix_append_right_inj] at h
    cases more with
    | nil => simp
    | cons d more =>
      obtain ⟨rfl, -⟩ := List.cons_prefix_cons.mp h
      simp at hds

/-- A declared text that a text begins with is not longer than what is read. -/
theorem Matches.le_read (h : u.Matches other) (hstart : other <+: c :: cs) :
    other.length ≤ (Lexeme.read c cs).text.length ∧
      (other = (Lexeme.read c cs).text → u = ofLexeme c (Lexeme.read c cs)) := by
  cases h with
  | @int d ds h =>
    obtain ⟨rfl, hds⟩ := List.cons_prefix_cons.mp hstart
    obtain ⟨hd, hdigits⟩ := List.forall_mem_cons.mp h
    rw [Lexeme.read_of_isDigit (isDigit_iff.mpr hd), ofLexeme_of_isDigit (isDigit_iff.mpr hd)]
    refine ⟨Nat.succ_le_succ ?_, fun _ => rfl⟩
    exact length_le_takeWhile hds fun e he => isDigit_iff.mpr (hdigits e he)
  | @ident d ds hd hparts =>
    obtain ⟨rfl, hds⟩ := List.cons_prefix_cons.mp hstart
    rw [Lexeme.read_of_isWordStart (isWordStart_iff.mpr hd),
      ofLexeme_of_isWordStart (isWordStart_iff.mpr hd)]
    refine ⟨Nat.succ_le_succ ?_, fun _ => rfl⟩
    exact length_le_takeWhile hds fun e he => isWordPart_iff.mpr (hparts e he)
  | @string ds h =>
    obtain ⟨rfl, rest, rfl⟩ := List.cons_prefix_cons.mp hstart
    rw [List.append_assoc, List.singleton_append, Lexeme.read_string h]
    exact ⟨Nat.le_refl _, fun _ => rfl⟩
  | @unterminated ds h =>
    obtain ⟨rfl, hds⟩ := List.cons_prefix_cons.mp hstart
    -- A string that is closed further on is longer than its opening part.
    rcases Lexeme.read_quote_cases cs with ⟨es, rest, -, rfl, hread⟩ | ⟨-, hread⟩
    · rw [hread]
      refine ⟨?_, fun heq => absurd ?_ h⟩
      · have hle := length_le_of_not_mem hds h
        simp only [List.length_cons, List.length_append]
        omega
      · rw [(List.cons.inj heq).2]
        simp
    · rw [hread]
      exact ⟨Nat.succ_le_succ hds.length_le, fun _ => rfl⟩
  | @symbol word kind h =>
    obtain ⟨d, single, hd, ⟨hword, rfl⟩ | ⟨e, hword, hpair⟩⟩ := exists_of_mem_symbols h
    · rw [hword] at hstart ⊢
      obtain ⟨rfl, -⟩ := List.cons_prefix_cons.mp hstart
      refine ⟨List.length_pos_iff.mpr (Lexeme.text_ne_nil d cs), ?_⟩
      rw [Lexeme.read_of_symbol hd, ofLexeme_of_symbol hd]
      intro heq
      cases cs with
      | nil => rw [Lexeme.ofSymbol, hd, Option.getD_some]
      | cons e es =>
        rw [Lexeme.ofSymbol] at heq ⊢
        -- A pair of marks would have been read as one token of two characters.
        cases hpair : Kind.ofSymbolPair? d e with
        | none => rw [hd, Option.getD_some]
        | some pair =>
          rw [hpair] at heq
          cases heq
    · rw [hword] at hstart ⊢
      obtain ⟨rfl, rest, rfl⟩ := List.cons_prefix_cons.mp hstart
      rw [Lexeme.read_of_symbol hd, ofLexeme_of_symbol hd, List.singleton_append, Lexeme.ofSymbol,
        hpair]
      exact ⟨Nat.le_refl _, fun _ => rfl⟩

end RawToken

/-! ## What is found -/

namespace Matcher

variable {matcher : Matcher} {c : Char} {cs : List Char} {t : RawToken}

/-- Where nothing declared begins there is layout or a stray character. -/
theorem isStray_of_forall_not_prefix (hlayout : c ∉ layoutCharacters)
    (h : ∀ {u : RawToken} {other}, u.Matches other → ¬other <+: c :: cs) : isStray c = true := by
  rw [← isLayout_iff, Bool.not_eq_true] at hlayout
  rw [← Bool.not_eq_false]
  intro hstray
  refine h (RawToken.makes_read hlayout hstray cs).declared ⟨(Lexeme.read c cs).rest, ?_⟩
  exact Lexeme.text_append_rest c cs

/-- The longest declared text that a text begins with is what is read. -/
theorem eq_read_of_longest {text rest : List Char} (ht : t.Matches text)
    (hlongest : ∀ {u : RawToken} {other}, u.Matches other → other <+: text ++ rest →
      other.length ≤ text.length) :
    ∃ c ds, text ++ rest = c :: ds ∧ t.Makes (Lexeme.read c ds) ∧
      text = (Lexeme.read c ds).text ∧ rest = (Lexeme.read c ds).rest := by
  obtain ⟨c, ds, rfl, hlayout, hstray⟩ := ht.head
  rw [List.cons_append] at hlongest ⊢
  have hmakes := RawToken.makes_read hlayout hstray (ds ++ rest)
  have hsplit := Lexeme.text_append_rest c (ds ++ rest)
  have htext : c :: ds <+: c :: (ds ++ rest) := List.prefix_append (c :: ds) rest
  have hread : (Lexeme.read c (ds ++ rest)).text <+: c :: (ds ++ rest) := ⟨_, hsplit⟩
  obtain ⟨hle, hof⟩ := ht.le_read htext
  have heq : c :: ds = (Lexeme.read c (ds ++ rest)).text :=
    (List.prefix_of_prefix_length_le htext hread hle).eq_of_length_le
      (hlongest hmakes.declared hread)
  refine ⟨c, ds ++ rest, rfl, hof heq ▸ hmakes, heq, ?_⟩
  rw [← heq] at hsplit
  exact (List.append_cancel_left hsplit).symm

/-- What begins behind the layout that is passed over is no layout. -/
theorem Granted.head_text (h : matcher.Granted) {f : Find cs} (hf : matcher cs = some f) :
    ∀ c ∈ (f.found.text ++ f.rest).head?, Text.isLayout c = false := by
  have hne := f.text_ne_nil
  intro c hc
  cases hfound : f.found with
  | token t text =>
    obtain ⟨d, ds, rfl, hlayout, -⟩ := (h.longest hf hfound).1.head
    rw [hfound] at hc
    cases hc
    exact hlayout
  | error run =>
    rw [hfound] at hc hne
    obtain ⟨d, ds, rfl⟩ := List.exists_cons_of_ne_nil hne
    cases hc
    rw [← Bool.not_eq_true, isLayout_iff]
    exact (h.error hf hfound [] c ds rfl).1

/--
Behind the layout, a matcher finds the lexeme that is read there or a run of stray characters, and
nothing only at the end of the text.
-/
theorem Granted.find_cases (h : matcher.Granted) (cs : List Char) :
    (matcher cs = none ∧ cs.dropWhile Text.isLayout = []) ∨
      ∃ f, matcher cs = some f ∧ f.layout = cs.takeWhile Text.isLayout ∧
        cs.dropWhile Text.isLayout = f.found.text ++ f.rest ∧
        ((∃ t c ds, cs.dropWhile Text.isLayout = c :: ds ∧ t.Makes (Lexeme.read c ds) ∧
            f.found = .token t (Lexeme.read c ds).text ∧ f.rest = (Lexeme.read c ds).rest) ∨
          ∃ run, f.found = .error run ∧ ∀ c ∈ run, isStray c = true) := by
  cases hf : matcher cs with
  | none =>
    exact .inl ⟨rfl, List.dropWhile_eq_nil_iff.mpr fun c hc => isLayout_iff.mpr (h.ended hf c hc)⟩
  | some f =>
    obtain ⟨htake, hdrop⟩ := takeWhile_run (fun c hc => isLayout_iff.mpr (h.layout hf c hc))
      (h.head_text hf)
    rw [← f.split] at htake hdrop
    refine .inr ⟨f, rfl, htake.symm, hdrop, ?_⟩
    cases hfound : f.found with
    | token t text =>
      obtain ⟨ht, hlongest⟩ := h.longest hf hfound
      obtain ⟨c, ds, hsplit, hmakes, rfl, hrest⟩ := eq_read_of_longest ht hlongest
      rw [hfound] at hdrop
      exact .inl ⟨t, c, ds, hdrop.trans hsplit, hmakes, rfl, hrest⟩
    | error run =>
      refine .inr ⟨run, rfl, fun c hc => ?_⟩
      obtain ⟨before, after, rfl⟩ := List.append_of_mem hc
      obtain ⟨hlayout, hnone⟩ := h.error hf hfound before c after rfl
      exact isStray_of_forall_not_prefix hlayout hnone

/-! ## A matcher -/

section OfRuns

variable (more : List Char → Nat)

theorem ofRuns_cases (cs : List Char) :
    (ofRuns more cs = none ∧ cs.dropWhile Text.isLayout = []) ∨
      ∃ f c ds, ofRuns more cs = some f ∧ cs.dropWhile Text.isLayout = c :: ds ∧
        f.layout = cs.takeWhile Text.isLayout ∧
        ((∃ run, f.found = .error run ∧ ∀ d ∈ run, isStray d = true) ∨
          isStray c = false ∧ f.found = .token (.ofLexeme c (Lexeme.read c ds))
            (Lexeme.read c ds).text ∧ f.rest = (Lexeme.read c ds).rest) := by
  unfold ofRuns
  split
  · next hdrop => exact .inl ⟨rfl, hdrop⟩
  · next c ds hdrop =>
    refine .inr ?_
    by_cases hc : isStray c = true
    · rw [if_pos hc]
      refine ⟨_, c, ds, rfl, hdrop, rfl, .inl ⟨_, rfl, List.forall_mem_cons.mpr ⟨hc, ?_⟩⟩⟩
      exact fun d hd => List.mem_takeWhile_imp (List.mem_of_mem_take hd)
    · rw [if_neg hc]
      exact ⟨_, c, ds, rfl, hdrop, rfl, .inr ⟨Bool.not_eq_true _ ▸ hc, rfl, rfl⟩⟩

/-- All that is granted is true of a matcher that reads lexemes and runs of stray characters. -/
theorem Granted.ofRuns : (ofRuns more).Granted where
  ended {cs} h c hc := by
    rcases ofRuns_cases more cs with ⟨-, hdrop⟩ | ⟨f, d, ds, hf, -⟩
    · exact isLayout_iff.mp (List.dropWhile_eq_nil_iff.mp hdrop c hc)
    · cases h.symm.trans hf
  layout {cs f} h c hc := by
    rcases ofRuns_cases more cs with ⟨hnone, -⟩ | ⟨f, d, ds, hf, -, hlayout, -⟩
    · cases h.symm.trans hnone
    · cases h.symm.trans hf
      rw [hlayout] at hc
      exact isLayout_iff.mp (List.mem_takeWhile_imp hc)
  longest {cs f t text} h ht := by
    rcases ofRuns_cases more cs with
      ⟨hnone, -⟩ | ⟨f, d, ds, hf, hdrop, -, ⟨run, hrun, -⟩ | ⟨hd, hfound, hrest⟩⟩
    · cases h.symm.trans hnone
    · cases h.symm.trans hf
      cases ht.symm.trans hrun
    · cases h.symm.trans hf
      cases ht.symm.trans hfound
      have hlayout : Text.isLayout d = false := by
        have hhead := List.head?_dropWhile_not Text.isLayout cs
        simpa [hdrop] using hhead
      refine ⟨(RawToken.makes_read hlayout hd ds).declared, fun hu hstart => ?_⟩
      rw [hrest, Lexeme.text_append_rest] at hstart
      exact (hu.le_read hstart).1
  error {cs f run} h hrun before c after heq := by
    rcases ofRuns_cases more cs with
      ⟨hnone, -⟩ | ⟨f, d, ds, hf, hdrop, -, ⟨run, hfound, hstray⟩ | ⟨hd, hfound, hrest⟩⟩
    · cases h.symm.trans hnone
    · cases h.symm.trans hf
      cases hrun.symm.trans hfound
      have hc : isStray c = true := hstray c (by rw [heq]; simp)
      refine ⟨?_, fun hu hstart => ?_⟩
      · rw [← isLayout_iff, (isStray_iff.mp hc).1]
        exact Bool.false_ne_true
      · obtain ⟨e, es, rfl, -, he⟩ := hu.head
        obtain ⟨rfl, -⟩ := List.cons_prefix_cons.mp hstart
        rw [he] at hc
        cases hc
    · cases h.symm.trans hf
      cases hrun.symm.trans hfound

end OfRuns

end Matcher

end Ember
