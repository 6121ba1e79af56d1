import Ember.Proofs.Canonical.Pieces
import Ember.Proofs.Grammar.Phrase
import Ember.Proofs.Recovery.Placeholders
import Ember.Proofs.Text.Decimal

/-!
# Trees that come from a source text

The lexer tells reserved words from names, reads a numeral as digits only and ends a string at the
first quote. So what is parsed from the tokens of a text can be written: its names are words that
are not reserved, its literals are not negative and its strings have no quotes
(`Program.writable_of_mem_ofSource`). Tokens that were put together by hand need not be so.
-/

namespace Ember

open Phrase

/-! ## Lexed pieces -/

/-- What the literal of a piece has to be, by its kind, for a lexer to have made it. -/
def Lexed : Piece → Prop
  | (.ident, name) => IsWord name ∧ Kind.ofKeyword? name = none
  | (.int, numeral) => ∃ c cs, numeral.toList = c :: cs ∧ c.isDigit = true
  | (.string, text) => '"' ∉ text.toList
  | _ => True

/-- A word is a keyword or a name, never both. -/
theorem lexed_ofWord {word : String} (h : IsWord word) : Lexed (Kind.ofWord word, word) := by
  unfold Kind.ofWord
  cases hkeyword : Kind.ofKeyword? word with
  | none => exact ⟨h, hkeyword⟩
  | some kind =>
    have hk := Kind.isKeyword_of_ofKeyword? hkeyword
    cases kind
    case ident => cases hk
    case int => cases hk
    case string => cases hk
    all_goals trivial

/-- The text between quotes has no quote in it. -/
theorem lexed_ofQuote (cs : List Char) : Lexed (Lexeme.ofQuote '"' cs).piece := by
  unfold Lexeme.ofQuote
  split
  · trivial
  · next quote rest hrest =>
    -- The literal is the run of characters between the quotes.
    show '"' ∉ (String.ofList (cs.takeWhile isStringPart ++ [quote]).dropLast).toList
    rw [List.dropLast_concat, String.toList_ofList]
    intro hmem
    have hpart := List.all_eq_true.mp List.all_takeWhile '"' hmem
    cases hpart

theorem lexed_ofSymbol? {c : Char} {kind : Kind} (h : Kind.ofSymbol? c = some kind)
    (text : String) : Lexed (kind, text) := by
  unfold Kind.ofSymbol? at h
  iterate 17
    rcases of_ite_eq_some h with ⟨-, rfl⟩ | h
    · trivial
  cases h

theorem lexed_ofSymbolPair? {c d : Char} {kind : Kind} (h : Kind.ofSymbolPair? c d = some kind)
    (text : String) : Lexed (kind, text) := by
  unfold Kind.ofSymbolPair? at h
  split at h
  · iterate 2
      rcases of_ite_eq_some h with ⟨-, rfl⟩ | h
      · trivial
    cases h
  · cases h

/-- Nothing is asked of the literal of a mark. -/
theorem lexed_ofSymbol (c : Char) (cs : List Char) : Lexed (Lexeme.ofSymbol c cs).piece := by
  have hsingle : ∀ text : String, Lexed ((Kind.ofSymbol? c).getD .illegal, text) := by
    intro text
    cases h : Kind.ofSymbol? c with
    | none => trivial
    | some kind => exact lexed_ofSymbol? h text
  unfold Lexeme.ofSymbol
  split
  · exact hsingle _
  split
  · next h => exact lexed_ofSymbolPair? h _
  · exact hsingle _

/-- Whatever is read at the front of a text is lexed. -/
theorem lexed_read (c : Char) (cs : List Char) : Lexed (Lexeme.read c cs).piece := by
  unfold Lexeme.read
  split
  · next hdigit => exact ⟨c, cs.takeWhile Char.isDigit, String.toList_ofList, hdigit⟩
  split
  · next hstart =>
    have hword : IsWord (String.ofList (c :: cs.takeWhile isWordPart)) :=
      ⟨c, cs.takeWhile isWordPart, String.toList_ofList, hstart,
        List.all_eq_true.mp List.all_takeWhile⟩
    unfold Lexeme.piece Lexeme.literal
    rw [if_neg (ofWord_ne .string nofun rfl _)]
    exact lexed_ofWord hword
  split
  · next hquote =>
    subst hquote
    exact lexed_ofQuote cs
  · exact lexed_ofSymbol c cs

/-- The pieces of a text are lexed. -/
theorem lexed_of_mem_scan {cs : List Char} {p : Piece} (hp : p ∈ scan cs) : Lexed p := by
  induction hn : cs.length using Nat.strongRecOn generalizing cs with
  | ind n ih =>
    rw [scan] at hp
    split at hp
    · cases hp
    · next c ds hcs =>
      have hread := Lexeme.length_rest_read c ds
      have hdrop := (List.dropWhile_sublist (l := cs) Text.isLayout).length_le
      rw [hcs] at hdrop
      rcases List.mem_cons.mp hp with rfl | hp
      · exact lexed_read c ds
      · exact ih _ (by omega) hp rfl

/-! ## What is parsed from lexed tokens -/

/-- All tokens of a list are lexed. -/
def AllLexed (ts : List Token) : Prop := ∀ t ∈ ts, Lexed t.piece

section Lexed

variable {t : Token} {ts us : List Token}

theorem AllLexed.head (h : AllLexed (t :: ts)) : Lexed t.piece := h t List.mem_cons_self

theorem AllLexed.tail (h : AllLexed (t :: ts)) : AllLexed ts :=
  fun u hu => h u (List.mem_cons_of_mem t hu)

/-- A name that the lexer made can be written. -/
theorem writable_ofToken (hkind : t.kind = .ident) (h : Lexed t.piece) :
    (Identifier.ofToken t).Writable := by
  unfold Token.piece at h
  rw [hkind] at h
  exact h

/-- A numeral that the lexer made has no sign. -/
theorem nonneg_of_lexed {value : Int64} (hkind : t.kind = .int) (h : Lexed t.piece)
    (hvalue : (Text.readInt? t.literal.toList).bind fit? = some value) : 0 ≤ value.toInt := by
  unfold Token.piece at h
  rw [hkind] at h
  obtain ⟨c, cs, hliteral, hdigit⟩ := h
  rw [hliteral, Text.readInt?_of_isDigit hdigit] at hvalue
  obtain ⟨m, hm, hfit⟩ := Option.bind_eq_some_iff.mp hvalue
  obtain ⟨k, -, rfl⟩ := Option.map_eq_some_iff.mp hm
  rw [fit?_eq_some_iff.mp hfit]
  exact Int.natCast_nonneg k

/-- The text of a lexed string can be put between quotes again. -/
theorem not_mem_quote_of_lexed (hkind : t.kind = .string) (h : Lexed t.piece) :
    '"' ∉ t.literal.toList := by
  unfold Token.piece at h
  rw [hkind] at h
  exact h

theorem Phrase.Terminator.lexed (h : Terminator ts us) (hts : AllLexed ts) : AllLexed us := by
  cases h with
  | semicolon => exact hts.tail
  | leftOut => exact hts

theorem Phrase.MoreParameters.writable {names : List Identifier} (h : MoreParameters ts names us)
    (hts : AllLexed ts) : (∀ i ∈ names, i.Writable) ∧ AllLexed us := by
  induction h with
  | close => exact ⟨nofun, hts.tail⟩
  | comma _ ht _ ih =>
    obtain ⟨hnames, hus⟩ := ih hts.tail.tail
    exact ⟨List.forall_mem_cons.mpr ⟨writable_ofToken ht hts.tail.head, hnames⟩, hus⟩

/-- Parameters are names that were lexed. -/
theorem Phrase.Parameters.writable {names : List Identifier} (h : Parameters ts names us)
    (hts : AllLexed ts) : (∀ i ∈ names, i.Writable) ∧ AllLexed us := by
  cases h with
  | none => exact ⟨nofun, hts.tail⟩
  | some ht hmore =>
    obtain ⟨hnames, hus⟩ := hmore.writable hts.tail
    exact ⟨List.forall_mem_cons.mpr ⟨writable_ofToken ht hts.head, hnames⟩, hus⟩

end Lexed

namespace Phrase

mutual

/-- An expression that is read from lexed tokens can be written, and lexed tokens are left. -/
theorem Nested.writable {s : Stratum} {ts us : List Token} {e : Expr} {n : Nat} :
    Nested s ts e n us → AllLexed ts → e.Writable ∧ AllLexed us
  | .mk h, hts => h.writable hts

/-- What is parsed from lexed tokens can be written, part by part. -/
theorem Operation.writable {s : Stratum} {ts us : List Token} {e : Expr} {k n : Nat} :
    Operation s ts e k n us → AllLexed ts → e.Writable ∧ AllLexed us
  | .atom h, hts => h.writable hts
  | .tighter _ h, hts => h.writable hts
  | .binary hleft _ _ hright, hts => by
    obtain ⟨hl, hus⟩ := hleft.writable hts
    obtain ⟨hr, hvs⟩ := hright.writable hus.tail
    exact ⟨⟨hl, hr⟩, hvs⟩
  | .unary _ hright, hts => hright.writable hts.tail
  | .call hcallee _ harguments, hts => by
    obtain ⟨hc, hus⟩ := hcallee.writable hts
    obtain ⟨ha, hvs⟩ := harguments.writable hus.tail
    exact ⟨⟨hc, ha⟩, hvs⟩
  | .index hleft _ hindex _, hts => by
    obtain ⟨hl, hus⟩ := hleft.writable hts
    obtain ⟨hi, hvs⟩ := hindex.writable hus.tail
    exact ⟨⟨hl, hi⟩, hvs.tail⟩

theorem Atom.writable {ts us : List Token} {e : Expr} {n : Nat} :
    Atom ts e n us → AllLexed ts → e.Writable ∧ AllLexed us
  | .identifier hkind, hts => ⟨writable_ofToken hkind hts.head, hts.tail⟩
  | .integer hkind hvalue, hts => ⟨nonneg_of_lexed hkind hts.head hvalue, hts.tail⟩
  | .string hkind, hts => ⟨not_mem_quote_of_lexed hkind hts.head, hts.tail⟩
  | .yes _, hts => ⟨trivial, hts.tail⟩
  | .no _, hts => ⟨trivial, hts.tail⟩
  | .grouped _ h _, hts => by
    obtain ⟨he, hvs⟩ := h.writable hts.tail
    exact ⟨he, hvs.tail⟩
  | .conditional _ _ hcondition _ hbody, hts => by
    obtain ⟨hc, hvs⟩ := hcondition.writable hts.tail.tail
    obtain ⟨hb, hws⟩ := hbody.writable hvs.tail
    exact ⟨⟨hc, hb⟩, hws⟩
  | .alternative _ _ hcondition _ hbody _ hother, hts => by
    obtain ⟨hc, hvs⟩ := hcondition.writable hts.tail.tail
    obtain ⟨hb, hws⟩ := hbody.writable hvs.tail
    obtain ⟨ho, hxs⟩ := hother.writable hws.tail
    exact ⟨⟨hc, hb, ho⟩, hxs⟩
  | .function _ _ hparameters hbody, hts => by
    obtain ⟨hp, hvs⟩ := hparameters.writable hts.tail.tail
    obtain ⟨hb, hws⟩ := hbody.writable hvs
    exact ⟨⟨hp, hb⟩, hws⟩
  | .array _ h, hts => h.writable hts.tail
  | .hash _ h, hts => h.writable hts.tail

theorem Items.writable {closing : Kind} {ts us : List Token} {es : List Expr} {n : Nat} :
    Items closing ts es n us → AllLexed ts → WritableList es ∧ AllLexed us
  | .none _, hts => ⟨trivial, hts.tail⟩
  | .some h hmore, hts => by
    obtain ⟨he, hus⟩ := h.writable hts
    obtain ⟨hes, hvs⟩ := hmore.writable hus
    exact ⟨⟨he, hes⟩, hvs⟩

theorem MoreItems.writable {closing : Kind} {ts us : List Token} {es : List Expr} {n : Nat} :
    MoreItems closing ts es n us → AllLexed ts → WritableList es ∧ AllLexed us
  | .close _, hts => ⟨trivial, hts.tail⟩
  | .comma _ h hmore, hts => by
    obtain ⟨he, hus⟩ := h.writable hts.tail
    obtain ⟨hes, hvs⟩ := hmore.writable hus
    exact ⟨⟨he, hes⟩, hvs⟩

theorem Pairs.writable {ts us : List Token} {pairs : List (Expr × Expr)} {n : Nat} :
    Pairs ts pairs n us → AllLexed ts → WritablePairs pairs ∧ AllLexed us
  | .close _, hts => ⟨trivial, hts.tail⟩
  | .last hkey _ hvalue _, hts => by
    obtain ⟨hk, hus⟩ := hkey.writable hts
    obtain ⟨hv, hvs⟩ := hvalue.writable hus.tail
    exact ⟨⟨hk, hv, trivial⟩, hvs.tail⟩
  | .comma hkey _ hvalue _ hpairs, hts => by
    obtain ⟨hk, hus⟩ := hkey.writable hts
    obtain ⟨hv, hvs⟩ := hvalue.writable hus.tail
    obtain ⟨hp, hws⟩ := hpairs.writable hvs.tail
    exact ⟨⟨hk, hv, hp⟩, hws⟩

theorem Braced.writable {ts us : List Token} {b : Block} {n : Nat} :
    Braced ts b n us → AllLexed ts → b.Writable ∧ AllLexed us
  | .mk _ h, hts => h.writable hts.tail

/-- A body is made of statements alone, and a block is never one of them. -/
theorem Body.writable {ts us : List Token} {ss : List Stmt} {n : Nat} :
    Body ts ss n us → AllLexed ts → WritableBody ss ∧ AllLexed us
  | .close _, hts => ⟨trivial, hts.tail⟩
  | .cons hs hss, hts => by
    obtain ⟨hw, hus⟩ := hs.writable hts
    obtain ⟨hws, hvs⟩ := hss.writable hus
    exact ⟨⟨hw, hws⟩, hvs⟩

/-- A statement that is read from lexed tokens can be written, and lexed tokens are left. -/
theorem Statement.writable {ts us : List Token} {s : Stmt} {n : Nat} :
    Statement ts s n us → AllLexed ts → s.Writable ∧ AllLexed us
  | .letBinding _ hname _ h hend, hts => by
    obtain ⟨he, hus⟩ := h.writable hts.tail.tail.tail
    exact ⟨⟨writable_ofToken hname hts.tail.head, he⟩, hend.lexed hus⟩
  | .returning _ h hend, hts => by
    obtain ⟨he, hus⟩ := h.writable hts.tail
    exact ⟨he, hend.lexed hus⟩
  | .ended h _, hts => by
    obtain ⟨he, hus⟩ := h.writable hts
    exact ⟨he, hus.tail⟩
  | .bare h _, hts => h.writable hts

end

end Phrase

/-- A statement of a source text is a placeholder or can be written. -/
theorem Program.writable_of_mem_ofSource {source : String} {s : Stmt}
    (hs : s ∈ (ofSource source).statements) : s.missing? ≠ none ∨ s.Writable := by
  obtain ⟨body, ending, hsource, hpieces, hending, hbody⟩ := TokenList.exists_ofSource source
  have hlexed : AllLexed body := by
    intro t ht
    have hmem : t.piece ∈ scan source.toList := by
      rw [← hpieces]
      exact List.mem_map_of_mem ht
    exact lexed_of_mem_scan hmem
  unfold ofSource at hs
  rw [hsource, ofTokens_eq, Input.ofList_concat hbody hending] at hs
  have hi : (⟨body, ending⟩ : Input).Ended := hending
  refine (phrase_of_mem_readAll hi hs).imp_right ?_
  rintro ⟨ts, n, us, hsuffix, -, h⟩
  exact (h.writable fun t ht => hlexed t (hsuffix.subset ht)).1

end Ember
