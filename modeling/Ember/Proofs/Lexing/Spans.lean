import Ember.Proofs.Canonical.Scan

/-!
# The tokens of a text cover it

Between the tokens of a text there is nothing but layout. `Tiles` says how: tokens and the layout
before each of them are laid end to end, and every token knows the bytes it covers. The lexer goes
through a text in just this way (`Lexer.tiles`).

So a text of less than 2³² bytes can be put together again from its tokens and their spans
(`TokenList.spans_ofSource`).
-/

namespace Ember

/-! ## Bytes and characters -/

/-- The bytes that characters take in UTF-8. -/
def utf8Bytes (cs : List Char) : List UInt8 := cs.flatMap String.utf8EncodeChar

theorem utf8Bytes_append (cs ds : List Char) :
    utf8Bytes (cs ++ ds) = utf8Bytes cs ++ utf8Bytes ds :=
  List.flatMap_append

theorem length_utf8Bytes (cs : List Char) : (utf8Bytes cs).length = utf8Length cs := by
  induction cs with
  | nil => rfl
  | cons c cs ih =>
    rw [utf8Length_cons, ← ih, ← String.length_utf8EncodeChar c]
    exact List.length_append

theorem utf8Bytes_toList (s : String) : utf8Bytes s.toList = s.toByteArray.data.toList := by
  rw [← String.utf8Encode_toList]
  exact List.toList_data_toByteArray.symm

theorem utf8Length_toList (s : String) : utf8Length s.toList = s.utf8ByteSize := by
  rw [← length_utf8Bytes, utf8Bytes_toList]
  rfl

theorem utf8Length_pos {cs : List Char} (h : cs ≠ []) : 0 < utf8Length cs := by
  cases cs with
  | nil => exact absurd rfl h
  | cons c cs => exact Nat.add_pos_left c.utf8Size_pos _

/-- Characters that a text begins with take up its first bytes. -/
theorem dropBytes?_append (cs ds : List Char) :
    dropBytes? (utf8Length cs) (cs ++ ds) = some ds := by
  induction cs with
  | nil => exact dropBytes?.eq_1 ds
  | cons c cs ih =>
    obtain ⟨n, hn⟩ := Nat.exists_eq_add_one.mpr (utf8Length_pos (List.cons_ne_nil c cs))
    have hsize : c.utf8Size + utf8Length cs = n + 1 := hn
    rw [hn, List.cons_append, dropBytes?, if_pos (by omega),
      show n + 1 - c.utf8Size = utf8Length cs by omega, ih]

theorem takeBytes?_append (cs ds : List Char) :
    takeBytes? (utf8Length cs) (cs ++ ds) = some cs := by
  induction cs with
  | nil => exact takeBytes?.eq_1 ds
  | cons c cs ih =>
    obtain ⟨n, hn⟩ := Nat.exists_eq_add_one.mpr (utf8Length_pos (List.cons_ne_nil c cs))
    have hsize : c.utf8Size + utf8Length cs = n + 1 := hn
    rw [hn, List.cons_append, takeBytes?, if_pos (by omega),
      show n + 1 - c.utf8Size = utf8Length cs by omega, ih, Option.map_some]

/-- The bytes that a part of a text takes up give the part back. -/
theorem Span.slice_of_append {source : String} {before text rest : List Char}
    (h : source.toList = before ++ text ++ rest) :
    slice ⟨utf8Length before, utf8Length (before ++ text)⟩ source = some (String.ofList text) := by
  have hlength : length ⟨utf8Length before, utf8Length (before ++ text)⟩ = utf8Length text := by
    rw [length, utf8Length_append, Nat.add_sub_cancel_left]
  unfold slice
  rw [if_neg (by rw [utf8Length_append]; exact Nat.not_lt.mpr (Nat.le_add_right _ _)), h,
    List.append_assoc, dropBytes?_append, Option.bind_some, hlength, takeBytes?_append]
  rfl

/-- A part of a text ends between two characters. -/
theorem isValid_of_append {source : String} {before rest : List Char}
    (h : source.toList = before ++ rest) :
    String.Pos.Raw.IsValid source ⟨utf8Length before⟩ := by
  refine String.Pos.Raw.isValid_iff_exists_append.mpr
    ⟨String.ofList before, String.ofList rest, ?_, ?_⟩
  · rw [← String.ofList_append, ← h, String.ofList_toList]
  · refine String.Pos.Raw.ext ?_
    rw [String.byteIdx_rawEndPos, ← utf8Length_toList, String.toList_ofList]

/-! ## Spelling -/

/-- The text that a token was scanned from, with the quotes of a string. -/
def Token.spelling (t : Token) : String :=
  if t.kind = .string then "\"" ++ t.literal ++ "\"" else t.literal

/-- Only what begins with a quote is read as a string. -/
theorem read_of_kind_string {c : Char} {cs : List Char} (h : (Lexeme.read c cs).kind = .string) :
    c = '"' ∧ Lexeme.read c cs = Lexeme.ofQuote c cs := by
  unfold Lexeme.read at h ⊢
  by_cases hdigit : c.isDigit = true
  · rw [if_pos hdigit] at h
    cases h
  rw [if_neg hdigit] at h ⊢
  by_cases hstart : isWordStart c = true
  · rw [if_pos hstart] at h
    exact absurd h (ofWord_ne .string nofun rfl _)
  rw [if_neg hstart] at h ⊢
  by_cases hquote : c = '"'
  · exact ⟨hquote, if_pos hquote⟩
  rw [if_neg hquote] at h
  exact absurd h (kind_ofSymbol_ne c cs).1

/-- A string is read with its quotes. -/
theorem exists_text_of_kind_string {c : Char} {cs : List Char}
    (h : (Lexeme.read c cs).kind = .string) :
    ∃ ds, (Lexeme.read c cs).text = '"' :: (ds ++ ['"']) := by
  obtain ⟨rfl, hread⟩ := read_of_kind_string h
  rw [hread] at h ⊢
  unfold Lexeme.ofQuote at h ⊢
  cases hrest : cs.dropWhile isStringPart with
  | nil =>
    rw [hrest] at h
    cases h
  | cons quote rest =>
    have hquote : isStringPart quote = false := by
      have hhead := List.head?_dropWhile_not isStringPart cs
      rw [hrest] at hhead
      exact hhead
    have heq : quote = '"' := by simpa [isStringPart] using hquote
    exact ⟨cs.takeWhile isStringPart, by rw [heq]⟩

theorem spelling_tokenOf (l : Lexer) (c : Char) (cs : List Char) :
    (l.tokenOf (Lexeme.read c cs)).spelling = String.ofList (Lexeme.read c cs).text := by
  unfold Token.spelling
  by_cases h : (Lexeme.read c cs).kind = .string
  · obtain ⟨ds, hds⟩ := exists_text_of_kind_string h
    have hliteral : (Lexeme.read c cs).literal = String.ofList ds := by
      rw [Lexeme.literal, if_pos h, hds, List.tail_cons, List.dropLast_concat]
    show (if (Lexeme.read c cs).kind = .string then _ ++ (Lexeme.read c cs).literal ++ _ else _) = _
    rw [if_pos h, hliteral, hds]
    exact String.toList_inj.mp (by simp)
  · have hliteral : (Lexeme.read c cs).literal = String.ofList (Lexeme.read c cs).text := by
      rw [Lexeme.literal, if_neg h]
    exact (if_neg h).trans hliteral

/-! ## Tokens laid end to end -/

/-- Nothing but layout characters. -/
def IsLayout (cs : List Char) : Prop := ∀ c ∈ cs, Text.isLayout c = true

/-- The token is what stands at its span in a text. -/
inductive Token.Covers (cs : List Char) (t : Token) : Prop
  | intro (before text rest : List Char) (split : cs = before ++ text ++ rest) (ne_nil : text ≠ [])
      (kind : t.kind ≠ .eof) (spelling : t.spelling = String.ofList text)
      (span : t.span = ⟨utf8Length before, utf8Length (before ++ text)⟩)

/--
In a text that `before` begins and `cs` continues, the tokens stand in `cs` one behind the other,
with layout around them, and an end of input is the last of them.
-/
inductive Tiles : List Char → List Char → List Token → Prop
  | ending {before layout : List Char} {t : Token} (hlayout : IsLayout layout)
      (hkind : t.kind = .eof)
      (hspan : t.span = ⟨utf8Length (before ++ layout), utf8Length (before ++ layout)⟩) :
      Tiles before layout [t]
  | token {before layout text rest : List Char} {t : Token} {ts : List Token}
      (hlayout : IsLayout layout) (htext : text ≠ []) (hkind : t.kind ≠ .eof)
      (hspelling : t.spelling = String.ofList text)
      (hspan : t.span = ⟨utf8Length (before ++ layout), utf8Length (before ++ layout ++ text)⟩)
      (h : Tiles (before ++ layout ++ text) rest ts) :
      Tiles before (layout ++ text ++ rest) (t :: ts)

theorem isLayout_takeWhile (cs : List Char) : IsLayout (cs.takeWhile Text.isLayout) :=
  List.all_eq_true.mp List.all_takeWhile

theorem Span.ofRange_of_le {start stop : Nat} (h : start ≤ stop) (hstop : stop ≤ maxOffset) :
    ofRange start stop = ⟨start, stop⟩ := by
  rw [ofRange, Nat.min_eq_left hstop, Nat.min_eq_left (Nat.le_trans h hstop)]

theorem offset_skipLayout {l : Lexer} {before : List Char} (h : l.offset = utf8Length before) :
    l.skipLayout.offset = utf8Length (before ++ l.rest.takeWhile Text.isLayout) := by
  rw [utf8Length_append, ← h]
  rfl

/-- The lexer goes through a text token by token and leaves nothing but layout behind. -/
theorem Lexer.tiles {l : Lexer} {before : List Char} (hoffset : l.offset = utf8Length before)
    (hsize : utf8Length (before ++ l.rest) ≤ Span.maxOffset) : Tiles before l.rest l.tokens := by
  induction l using Lexer.tokens_induction generalizing before with
  | ending l hrest =>
    have hlayout : l.rest.takeWhile Text.isLayout = l.rest := by
      rw [← List.append_nil (List.takeWhile _ _), ← hrest, List.takeWhile_append_dropWhile]
    have hplace := offset_skipLayout hoffset
    rw [hlayout] at hplace
    refine .ending (hlayout ▸ isLayout_takeWhile l.rest) rfl ?_
    show Span.ofRange l.skipLayout.offset l.skipLayout.offset = _
    rw [hplace, Span.ofRange_of_le (Nat.le_refl _) hsize]
  | token l c cs ts hrest ih =>
    have hplace := offset_skipLayout hoffset
    have hsplit : l.rest = l.rest.takeWhile Text.isLayout ++ (Lexeme.read c cs).text ++
        (Lexeme.read c cs).rest := by
      rw [List.append_assoc, Lexeme.text_append_rest, ← hrest, List.takeWhile_append_dropWhile]
    have hlayout := isLayout_takeWhile l.rest
    generalize l.rest.takeWhile Text.isLayout = layout at hplace hsplit hlayout
    have hbehind : l.skipLayout.offset + utf8Length (Lexeme.read c cs).text =
        utf8Length (before ++ layout ++ (Lexeme.read c cs).text) := by
      rw [hplace, ← utf8Length_append]
    rw [hsplit, ← List.append_assoc, ← List.append_assoc] at hsize
    rw [hsplit]
    refine .token hlayout (Lexeme.text_ne_nil c cs) (kind_read_ne_eof c cs)
      (spelling_tokenOf l.skipLayout c cs) ?_ (ih hbehind hsize)
    rw [utf8Length_append, ← hbehind] at hsize
    show Span.ofRange l.skipLayout.offset (l.skipLayout.offset + _) = _
    rw [Span.ofRange_of_le (Nat.le_add_right _ _) (Nat.le_of_add_right_le hsize), hbehind, hplace]

namespace Tiles

variable {before cs : List Char} {ts : List Token}

/-- Every token but the last one covers a part of the text. -/
theorem exists_concat (h : Tiles before cs ts) :
    ∃ body ending, ts = body ++ [ending] ∧ ending.kind = .eof ∧
      ending.span = ⟨utf8Length (before ++ cs), utf8Length (before ++ cs)⟩ ∧
      ∀ t ∈ body, t.Covers (before ++ cs) := by
  induction h with
  | ending _ hkind hspan => exact ⟨[], _, rfl, hkind, hspan, List.forall_mem_nil _⟩
  | @token before layout text rest t ts _ htext hkind hspelling hspan _ ih =>
    obtain ⟨body, ending, rfl, hending, hplace, hbody⟩ := ih
    have hwhole : before ++ (layout ++ text ++ rest) = before ++ layout ++ text ++ rest := by
      simp only [List.append_assoc]
    rw [hwhole]
    exact ⟨t :: body, ending, rfl, hending, hplace, List.forall_mem_cons.mpr
      ⟨⟨_, text, rest, rfl, htext, hkind, hspelling, hspan⟩, hbody⟩⟩

/-- No token begins before the place where the tokens begin. -/
theorem le_start (h : Tiles before cs ts) : ∀ t ∈ ts, utf8Length before ≤ t.span.start := by
  induction h with
  | ending _ _ hspan =>
    rw [List.forall_mem_singleton, hspan, utf8Length_append]
    exact Nat.le_add_right _ _
  | token _ _ _ _ hspan _ ih =>
    rw [List.forall_mem_cons, hspan, utf8Length_append]
    refine ⟨Nat.le_add_right _ _, fun t ht => Nat.le_trans ?_ (ih t ht)⟩
    rw [List.append_assoc, utf8Length_append]
    exact Nat.le_add_right _ _

/-- Every token ends before the next one begins. -/
theorem pairwise (h : Tiles before cs ts) : ts.Pairwise fun s t => s.span.stop ≤ t.span.start := by
  induction h with
  | ending => exact List.pairwise_singleton _ _
  | token _ _ _ _ hspan h ih =>
    refine List.pairwise_cons.mpr ⟨?_, ih⟩
    rw [hspan]
    exact h.le_start

end Tiles

/-! ## What no token covers -/

/-- The bytes of the layout characters: space, tab, line feed, carriage return. -/
def layoutBytes : List UInt8 := [0x20, 0x09, 0x0A, 0x0D]

theorem mem_layoutBytes {layout : List Char} (h : IsLayout layout) {b : UInt8}
    (hb : b ∈ utf8Bytes layout) : b ∈ layoutBytes := by
  obtain ⟨c, hc, hbc⟩ := List.mem_flatMap.mp hb
  have hlayout := h c hc
  simp only [Text.isLayout, Bool.or_eq_true, beq_iff_eq] at hlayout
  rcases hlayout with ((rfl | rfl) | rfl) | rfl
  all_goals
    cases List.mem_singleton.mp hbc
    decide

theorem mem_layoutBytes_of_getElem? {before layout rest : List Char} (h : IsLayout layout) {i : Nat}
    {b : UInt8} (hb : (utf8Bytes (before ++ layout ++ rest))[i]? = some b)
    (hle : utf8Length before ≤ i) (hlt : i < utf8Length (before ++ layout)) : b ∈ layoutBytes := by
  rw [utf8Bytes_append, List.getElem?_append_left (by rwa [length_utf8Bytes]), utf8Bytes_append,
    List.getElem?_append_right (by rwa [length_utf8Bytes])] at hb
  exact mem_layoutBytes h (List.mem_of_getElem? hb)

/-- A byte that no token covers is a byte of layout. -/
theorem Tiles.mem_layoutBytes {before cs : List Char} {ts : List Token} (h : Tiles before cs ts)
    {i : Nat} {b : UInt8} (hb : (utf8Bytes (before ++ cs))[i]? = some b)
    (hle : utf8Length before ≤ i) (hts : ∀ t ∈ ts, i < t.span.start ∨ t.span.stop ≤ i) :
    b ∈ layoutBytes := by
  induction h with
  | ending hlayout =>
    rw [← List.append_nil (_ ++ _)] at hb
    refine mem_layoutBytes_of_getElem? hlayout hb hle ?_
    obtain ⟨hlt, -⟩ := List.getElem?_eq_some_iff.mp hb
    rwa [List.append_nil, length_utf8Bytes] at hlt
  | @token before layout text rest t ts hlayout _ _ _ hspan _ ih =>
    obtain ⟨ht, hts⟩ := List.forall_mem_cons.mp hts
    rw [hspan] at ht
    rw [List.append_assoc layout, ← List.append_assoc before] at hb
    rcases ht with hlt | hstop
    · exact mem_layoutBytes_of_getElem? hlayout hb hle hlt
    · rw [← List.append_assoc] at hb
      exact ih hb hstop hts

/-! ## The tokens of a text -/

/--
The tokens of a text of less than 2³² bytes stand in it one behind the other. The last of them, and
no other, is the end of input, and its span is the end of the text. Every other one covers at least
one byte and begins and ends between characters. What its span cuts out is its literal, with the
quotes around it if it is a string. Every byte that no token covers is a space, a tab, a line feed
or a carriage return.
-/
theorem TokenList.spans_ofSource {source : String} (h : source.utf8ByteSize < 0x100000000) :
    ∃ body ending, (ofSource source).tokens = body ++ [ending] ∧ ending.kind = .eof ∧
      ending.span = ⟨source.utf8ByteSize, source.utf8ByteSize⟩ ∧
      (∀ t ∈ body, t.kind ≠ .eof ∧ t.span.start < t.span.stop ∧
        String.Pos.Raw.IsValid source ⟨t.span.start⟩ ∧ String.Pos.Raw.IsValid source ⟨t.span.stop⟩ ∧
        t.span.slice source = some t.spelling) ∧
      (body ++ [ending]).Pairwise (fun s t => s.span.stop ≤ t.span.start) ∧
      ∀ i b, source.toByteArray.data[i]? = some b →
        (∀ t ∈ body, i < t.span.start ∨ t.span.stop ≤ i) → b ∈ layoutBytes := by
  have htiles : Tiles [] source.toList (ofSource source).tokens := by
    refine Lexer.tiles (l := .ofString source) rfl ?_
    show utf8Length source.toList ≤ Span.maxOffset
    rw [utf8Length_toList]
    exact Nat.le_of_lt_succ h
  obtain ⟨body, ending, htokens, hkind, hspan, hbody⟩ := htiles.exists_concat
  rw [List.nil_append, utf8Length_toList] at hspan
  refine ⟨body, ending, htokens, hkind, hspan, fun t ht => ?_, htokens ▸ htiles.pairwise, ?_⟩
  · obtain ⟨before, text, rest, hsplit, hne, hkind, hspelling, hspan⟩ := hbody t ht
    rw [List.nil_append] at hsplit
    rw [hspan, hspelling]
    refine ⟨hkind, ?_, isValid_of_append (hsplit.trans (List.append_assoc ..)),
      isValid_of_append hsplit, Span.slice_of_append hsplit⟩
    rw [utf8Length_append]
    exact Nat.lt_add_of_pos_right (utf8Length_pos hne)
  · intro i b hb hout
    rw [← Array.getElem?_toList, ← utf8Bytes_toList] at hb
    refine htiles.mem_layoutBytes hb (Nat.zero_le i) ?_
    rw [htokens, List.forall_mem_append, List.forall_mem_singleton, hspan]
    refine ⟨hout, .inl ?_⟩
    obtain ⟨hlt, -⟩ := List.getElem?_eq_some_iff.mp hb
    rwa [length_utf8Bytes, utf8Length_toList] at hlt

/-- A character beyond ASCII, a space, and a quote without a partner. -/
theorem TokenList.spans_ofSource_unclosed :
    let source := "§ \"é"
    source.utf8ByteSize < 0x100000000 ∧
      (ofSource source).tokens.map Token.span = [⟨0, 2⟩, ⟨3, 6⟩, ⟨6, 6⟩] ∧
      (∀ t ∈ (ofSource source).tokens.dropLast, t.span.slice source = some t.spelling) ∧
      ∀ b, source.toByteArray.data[2]? = some b → b ∈ layoutBytes := by
  intro source
  have hsize : source.utf8ByteSize < 0x100000000 := by decide +kernel
  have hspans : (ofSource "§ \"é").tokens.map Token.span = [⟨0, 2⟩, ⟨3, 6⟩, ⟨6, 6⟩] := by
    decide +kernel
  obtain ⟨body, ending, htokens, -, -, hbody, -, hout⟩ := spans_ofSource hsize
  have hcovered : body.map Token.span = [⟨0, 2⟩, ⟨3, 6⟩] := by
    have h := congrArg List.dropLast hspans
    rwa [htokens, List.map_append, List.map_singleton, List.dropLast_concat] at h
  refine ⟨hsize, hspans, ?_, fun b hb => hout 2 b hb fun t ht => ?_⟩
  · rw [htokens, List.dropLast_concat]
    exact fun t ht => (hbody t ht).2.2.2.2
  · have hmem := List.mem_map_of_mem (f := Token.span) ht
    rw [hcovered] at hmem
    generalize t.span = s at hmem ⊢
    revert s
    decide

end Ember
