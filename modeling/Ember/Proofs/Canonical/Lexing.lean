import Ember.Proofs.Canonical.Pieces
import Ember.Proofs.Text.Decimal

/-!
# The text of a tree is lexed to its pieces

For every writable tree, scanning its text gives its pieces and then whatever the rest of the text
gives (`scan_render`, `scan_renderStmt`). The induction is on the tree. What it needs to know of the
text behind an expression is that no character of a word comes next; every text that the printer
puts behind one begins with a symbol or a space.
-/

namespace Ember

/-! ## Marks -/

/-- Only `=` and `!` can be prolonged. -/
theorem scan_mark {c : Char} {kind : Kind} (h : Kind.ofSymbol? c = some kind)
    (hc : (c == '=' || c == '!') = false) (cs : List Char) :
    scan (c :: cs) = (kind, String.ofList [c]) :: scan cs := by
  refine scan_symbol h ?_
  intro d _
  cases hpair : Kind.ofSymbolPair? c d with
  | none => rfl
  | some k =>
    rcases (plain_of_ofSymbolPair? hpair).1 with rfl | rfl <;> cases hc

@[simp] theorem scan_space (cs : List Char) : scan (' ' :: cs) = scan cs := scan_layout rfl cs

@[simp] theorem scan_newline (cs : List Char) : scan ('\n' :: cs) = scan cs := scan_layout rfl cs

@[simp] theorem scan_lParen (cs : List Char) : scan ('(' :: cs) = (.lParen, "(") :: scan cs :=
  scan_mark rfl rfl cs

@[simp] theorem scan_rParen (cs : List Char) : scan (')' :: cs) = (.rParen, ")") :: scan cs :=
  scan_mark rfl rfl cs

@[simp] theorem scan_lBracket (cs : List Char) : scan ('[' :: cs) = (.lBracket, "[") :: scan cs :=
  scan_mark rfl rfl cs

@[simp] theorem scan_rBracket (cs : List Char) : scan (']' :: cs) = (.rBracket, "]") :: scan cs :=
  scan_mark rfl rfl cs

@[simp] theorem scan_lBrace (cs : List Char) :
    scan ('\x7b' :: cs) = (.lBrace, "\x7b") :: scan cs :=
  scan_mark rfl rfl cs

@[simp] theorem scan_rBrace (cs : List Char) :
    scan ('\x7d' :: cs) = (.rBrace, "\x7d") :: scan cs :=
  scan_mark rfl rfl cs

@[simp] theorem scan_comma (cs : List Char) : scan (',' :: cs) = (.comma, ",") :: scan cs :=
  scan_mark rfl rfl cs

@[simp] theorem scan_colon (cs : List Char) : scan (':' :: cs) = (.colon, ":") :: scan cs :=
  scan_mark rfl rfl cs

@[simp] theorem scan_semicolon (cs : List Char) :
    scan (';' :: cs) = (.semicolon, ";") :: scan cs :=
  scan_mark rfl rfl cs

/-- Before a space, `=` is not prolonged. -/
@[simp] theorem scan_assign (cs : List Char) :
    scan ('=' :: ' ' :: cs) = (.assign, "=") :: scan cs := by
  have h : scan ('=' :: ' ' :: cs) = (.assign, "=") :: scan (' ' :: cs) := by
    refine scan_symbol rfl ?_
    intro d hd
    cases hd
    rfl
  rw [h, scan_space]

/-! ## Operators -/

/-- Of the signs only `!` can be prolonged, by a `=` that comes next. -/
theorem scan_unaryOp (op : UnaryOp) {rest : List Char} (h : ∀ c ∈ rest.head?, c ≠ '=') :
    scan (op.symbol.toList ++ rest) = (op.kind, op.symbol) :: scan rest := by
  cases op with
  | neg => exact scan_mark rfl rfl rest
  | not =>
    refine scan_symbol rfl ?_
    intro d hd
    unfold Kind.ofSymbolPair?
    rw [if_neg (h d hd)]

/-- An operator is printed with a space behind it, which is skipped. -/
theorem scan_binaryOp (op : BinaryOp) (rest : List Char) :
    scan (op.symbol.toList ++ ' ' :: rest) = (op.kind, op.symbol) :: scan rest := by
  have hone : ∀ {c : Char} {kind : Kind}, Kind.ofSymbol? c = some kind →
      scan (c :: ' ' :: rest) = (kind, String.ofList [c]) :: scan rest := by
    intro c kind h
    have hspace : ∀ d ∈ (' ' :: rest).head?, Kind.ofSymbolPair? c d = none := by
      intro d hd
      cases hd
      rfl
    rw [scan_symbol h hspace, scan_space]
  have htwo : ∀ {c d : Char} {kind : Kind}, Kind.ofSymbolPair? c d = some kind →
      scan (c :: d :: ' ' :: rest) = (kind, String.ofList [c, d]) :: scan rest := by
    intro c d kind h
    rw [scan_symbolPair h, scan_space]
  cases op with
  | add | sub | mul | div | lt | gt => exact hone rfl
  | eq | notEq => exact htwo rfl

/-! ## Words and numerals -/

theorem isWord_cons {c : Char} {cs : List Char} (hc : isWordStart c = true)
    (hcs : cs.all isWordPart = true) : IsWord (String.ofList (c :: cs)) :=
  ⟨c, cs, String.toList_ofList, hc, List.all_eq_true.mp hcs⟩

/-- A name that can be written is not the empty one, which prints differently. -/
theorem render_of_writable {i : Identifier} (h : i.Writable) : i.render = i.name := by
  obtain ⟨c, cs, hname, -⟩ := h.1
  have hne : i.name ≠ "" := by
    intro hempty
    rw [hempty] at hname
    cases hname
  unfold Identifier.render Identifier.isMissing
  rw [if_neg (by simpa using hne)]

/-- A name is read as one word, and it is no keyword. -/
theorem scan_name {i : Identifier} (h : i.Writable) {rest : List Char} (hrest : Apart rest) :
    scan (i.render.toList ++ rest) = (.ident, i.name) :: scan rest := by
  rw [render_of_writable h, scan_word h.1 hrest]
  unfold Kind.ofWord
  rw [h.2, Option.getD_none]

theorem scan_boolean (value : Bool) {rest : List Char} (hrest : Apart rest) :
    scan ((if value then "true" else "false").toList ++ rest)
      = (if value then (.kwTrue, "true") else (.kwFalse, "false")) :: scan rest := by
  cases value with
  | true => exact scan_word (isWord_cons rfl rfl) hrest
  | false => exact scan_word (isWord_cons rfl rfl) hrest

/-- Only a number without a sign is a numeral. -/
theorem scan_integer {n : Int} (h : 0 ≤ n) {rest : List Char} (hrest : Apart rest) :
    scan ((Text.writeInt n).toList ++ rest) = (.int, Text.writeInt n) :: scan rest := by
  have hlist := Text.toList_writeInt_of_nonneg h
  obtain ⟨c, cs, hcs⟩ := List.exists_cons_of_ne_nil (Nat.toDigits_ne_nil (n := n.natAbs) (b := 10))
  have hdigits : ∀ d ∈ c :: cs, d.isDigit = true := by
    intro d hd
    rw [← hcs] at hd
    exact Text.isDigit_of_mem_toDigits hd
  rw [hlist, hcs, scan_digits hdigits hrest, ← hcs, ← hlist, String.ofList_toList]

/-- A word and the space after it. -/
theorem scan_word_space (c : Char) (cs : List Char) (hc : isWordStart c = true)
    (hcs : cs.all isWordPart = true) (rest : List Char) :
    scan (c :: cs ++ ' ' :: rest)
      = (Kind.ofWord (String.ofList (c :: cs)), String.ofList (c :: cs)) :: scan rest := by
  have h := scan_word (isWord_cons hc hcs) (Apart.cons (c := ' ') rfl rest)
  rwa [String.toList_ofList, scan_space] at h

theorem scan_let (cs : List Char) :
    scan ('l' :: 'e' :: 't' :: ' ' :: cs) = (.kwLet, "let") :: scan cs :=
  scan_word_space 'l' ['e', 't'] rfl rfl cs

theorem scan_return (cs : List Char) :
    scan ('r' :: 'e' :: 't' :: 'u' :: 'r' :: 'n' :: ' ' :: cs)
      = (.kwReturn, "return") :: scan cs :=
  scan_word_space 'r' ['e', 't', 'u', 'r', 'n'] rfl rfl cs

theorem scan_if (cs : List Char) : scan ('i' :: 'f' :: ' ' :: cs) = (.kwIf, "if") :: scan cs :=
  scan_word_space 'i' ['f'] rfl rfl cs

theorem scan_else (cs : List Char) :
    scan ('e' :: 'l' :: 's' :: 'e' :: ' ' :: cs) = (.kwElse, "else") :: scan cs :=
  scan_word_space 'e' ['l', 's', 'e'] rfl rfl cs

/-- The one keyword that is printed without a space behind it. -/
theorem scan_fn (cs : List Char) :
    scan ('f' :: 'n' :: '(' :: cs) = (.kwFn, "fn") :: (.lParen, "(") :: scan cs := by
  have hword : IsWord "fn" := isWord_cons rfl rfl
  have h := scan_word hword (Apart.cons (c := '(') rfl cs)
  rwa [scan_lParen] at h

/-! ## Trees -/

/-- No text of an expression begins with `=`, which would prolong an operator before it. -/
theorem head_render : ∀ e : Expr, e.Writable →
    ∃ c cs, e.render.toList = c :: cs ∧ c ≠ '='
  | .identifier name, h => by
    obtain ⟨c, cs, hname, hc, -⟩ : IsWord name.name := h.1
    refine ⟨c, cs, ?_, ?_⟩
    · rw [show (Expr.identifier name).render = name.render from rfl, render_of_writable h, hname]
    · rintro rfl
      exact absurd hc (by decide)
  | .integer _ value, h => by
    have hvalue : 0 ≤ value.toInt := h
    obtain ⟨c, cs, hcs⟩ :=
      List.exists_cons_of_ne_nil (Nat.toDigits_ne_nil (n := value.toInt.natAbs) (b := 10))
    refine ⟨c, cs, ?_, ?_⟩
    · rw [← hcs]
      exact Text.toList_writeInt_of_nonneg hvalue
    · rintro rfl
      have hdigit := Text.isDigit_of_mem_toDigits (n := value.toInt.natAbs) (c := '=')
      rw [hcs] at hdigit
      exact absurd (hdigit List.mem_cons_self) (by decide)
  | .boolean _ true, _ => ⟨'t', ['r', 'u', 'e'], by simp [Expr.render], by decide⟩
  | .boolean _ false, _ => ⟨'f', ['a', 'l', 's', 'e'], by simp [Expr.render], by decide⟩
  | .string _ _, _ => by simp [Expr.render]
  | .array _ _, _ => by simp [Expr.render]
  | .hash _ _, _ => by simp [Expr.render]
  | .unary _ _ _, _ => by simp [Expr.render]
  | .binary _ _ _ _, _ => by simp [Expr.render]
  | .conditional _ _ _ none, _ => by simp [Expr.render]
  | .conditional _ _ _ (some _), _ => by simp [Expr.render]
  | .function ⟨_, _, _⟩, _ => by simp [Expr.render, FunctionLiteral.render]
  | .call _ callee arguments, h => by
    -- Nothing is written before the callee, so its first character is the first of the call.
    obtain ⟨c, cs, hcallee, hc⟩ := head_render callee h.1
    refine ⟨c, cs ++ ("(" ++ renderList arguments ++ ")").toList, ?_, hc⟩
    simp [Expr.render, hcallee]
  | .index _ _ _, _ => by simp [Expr.render]
  | .missing _, h => absurd h id

/-! ## Parameters -/

/-- The text of parameters, one comma and one space between neighbours. -/
def parameterText : List Identifier → List Char
  | [] => []
  | [i] => i.render.toList
  | i :: is => i.render.toList ++ ',' :: ' ' :: parameterText is

/-- The printer joins the names with commas; the proofs go through them one by one. -/
theorem toList_intercalate_parameters (is : List Identifier) :
    (", ".intercalate (is.map Identifier.render)).toList = parameterText is := by
  induction is with
  | nil => rfl
  | cons i is ih =>
    cases is with
    | nil => simp [parameterText]
    | cons j is =>
      rw [List.map_cons, List.map_cons, String.intercalate_cons_cons, String.toList_append,
        String.toList_append, ← List.map_cons, ih, List.append_assoc]
      rfl

/-- The names and the commas between them. -/
theorem scan_parameters : ∀ (is : List Identifier), (∀ i ∈ is, i.Writable) →
    ∀ rest : List Char, Apart rest →
      scan (parameterText is ++ rest) = parameterPieces is ++ scan rest
  | [], _, _, _ => rfl
  | [i], h, rest, hrest => scan_name (h i List.mem_cons_self) hrest
  | i :: j :: is, h, rest, hrest => by
    have hcons : parameterText (i :: j :: is) ++ rest
        = i.render.toList ++ (',' :: ' ' :: (parameterText (j :: is) ++ rest)) :=
      List.append_assoc _ _ _
    have htail := scan_parameters (j :: is) (fun k hk => h k (List.mem_cons_of_mem i hk)) rest hrest
    rw [hcons, scan_name (h i List.mem_cons_self) (.cons rfl _), scan_comma, scan_space, htail]
    rfl

/-! ## Trees -/

mutual

/-- The text of an expression is scanned to its pieces. -/
theorem scan_render : ∀ e : Expr, e.Writable → ∀ rest : List Char, Apart rest →
    scan (e.render.toList ++ rest) = e.pieces ++ scan rest
  | .identifier name, h, rest, hrest => scan_name h hrest
  | .integer _ value, h, rest, hrest => scan_integer h hrest
  | .boolean _ value, _, rest, hrest => scan_boolean value hrest
  | .string t value, h, rest, _ => by
    have htext : (Expr.string t value).render.toList ++ rest
        = '"' :: (value.toList ++ '"' :: rest) := by simp [Expr.render]
    rw [htext, scan_string h, String.ofList_toList]
    rfl
  | .array t elements, h, rest, _ => by
    have htext : (Expr.array t elements).render.toList ++ rest
        = '[' :: ((renderList elements).toList ++ ']' :: rest) := by simp [Expr.render]
    rw [htext, scan_lBracket, scan_renderList elements h _ (.cons rfl _), scan_rBracket]
    simp [Expr.pieces]
  | .hash t pairs, h, rest, _ => by
    have htext : (Expr.hash t pairs).render.toList ++ rest
        = '\x7b' :: ((renderPairs pairs).toList ++ '\x7d' :: rest) := by simp [Expr.render]
    rw [htext, scan_lBrace, scan_renderPairs pairs h _ (.cons rfl _), scan_rBrace]
    simp [Expr.pieces]
  | .unary t op right, h, rest, _ => by
    have htext : (Expr.unary t op right).render.toList ++ rest
        = '(' :: (op.symbol.toList ++ (right.render.toList ++ ')' :: rest)) := by
      simp [Expr.render]
    -- A `!` is a token of its own only because the operand does not begin with `=`.
    have hhead : ∀ c ∈ (right.render.toList ++ ')' :: rest).head?, c ≠ '=' := by
      obtain ⟨c, cs, hright, hc⟩ := head_render right h
      rw [hright]
      rintro d ⟨⟩
      exact hc
    rw [htext, scan_lParen, scan_unaryOp op hhead, scan_render right h _ (.cons rfl _),
      scan_rParen]
    simp [Expr.pieces]
  | .binary t left op right, h, rest, _ => by
    have htext : (Expr.binary t left op right).render.toList ++ rest
        = '(' :: (left.render.toList ++
          ' ' :: (op.symbol.toList ++ ' ' :: (right.render.toList ++ ')' :: rest))) := by
      simp [Expr.render]
    rw [htext, scan_lParen, scan_render left h.1 _ (.cons rfl _), scan_space, scan_binaryOp,
      scan_render right h.2 _ (.cons rfl _), scan_rParen]
    simp [Expr.pieces]
  | .conditional t condition consequence none, h, rest, _ => by
    have htext : (Expr.conditional t condition consequence none).render.toList ++ rest
        = 'i' :: 'f' :: ' ' :: '(' :: (condition.render.toList ++
          ')' :: ' ' :: (consequence.render.toList ++ rest)) := by simp [Expr.render]
    rw [htext, scan_if, scan_lParen, scan_render condition h.1 _ (.cons rfl _), scan_rParen,
      scan_space, scan_renderBlock consequence h.2 rest]
    simp [Expr.pieces]
  | .conditional t condition consequence (some alternative), h, rest, _ => by
    have htext : (Expr.conditional t condition consequence (some alternative)).render.toList ++ rest
        = 'i' :: 'f' :: ' ' :: '(' :: (condition.render.toList ++
          ')' :: ' ' :: (consequence.render.toList ++
            ' ' :: 'e' :: 'l' :: 's' :: 'e' :: ' ' :: (alternative.render.toList ++ rest))) := by
      simp [Expr.render]
    rw [htext, scan_if, scan_lParen, scan_render condition h.1 _ (.cons rfl _), scan_rParen,
      scan_space, scan_renderBlock consequence h.2.1, scan_space, scan_else,
      scan_renderBlock alternative h.2.2]
    simp [Expr.pieces]
  | .function ⟨t, parameters, body⟩, h, rest, _ => by
    have htext : (Expr.function ⟨t, parameters, body⟩).render.toList ++ rest
        = 'f' :: 'n' :: '(' :: (parameterText parameters ++
          ')' :: ' ' :: (body.render.toList ++ rest)) := by
      simp [Expr.render, FunctionLiteral.render, ← toList_intercalate_parameters]
    rw [htext, scan_fn, scan_parameters parameters h.1 _ (.cons rfl _), scan_rParen, scan_space,
      scan_renderBlock body h.2 rest]
    simp [Expr.pieces, FunctionLiteral.pieces]
  | .call t callee arguments, h, rest, _ => by
    have htext : (Expr.call t callee arguments).render.toList ++ rest
        = callee.render.toList ++ '(' :: ((renderList arguments).toList ++ ')' :: rest) := by
      simp [Expr.render]
    rw [htext, scan_render callee h.1 _ (.cons rfl _), scan_lParen,
      scan_renderList arguments h.2 _ (.cons rfl _), scan_rParen]
    simp [Expr.pieces]
  | .index t left index, h, rest, _ => by
    have htext : (Expr.index t left index).render.toList ++ rest
        = '(' :: (left.render.toList ++
          '[' :: (index.render.toList ++ ']' :: ')' :: rest)) := by simp [Expr.render]
    rw [htext, scan_lParen, scan_render left h.1 _ (.cons rfl _), scan_lBracket,
      scan_render index h.2 _ (.cons rfl _), scan_rBracket, scan_rParen]
    simp [Expr.pieces]
  | .missing _, h, _, _ => absurd h id

/--
Behind every item there is a comma or the text behind the list, and neither goes on with a word.
-/
theorem scan_renderList : ∀ es : List Expr, WritableList es → ∀ rest : List Char, Apart rest →
    scan ((renderList es).toList ++ rest) = listPieces es ++ scan rest
  | [], _, _, _ => rfl
  | [e], h, rest, hrest => scan_render e h.1 rest hrest
  | e :: f :: es, h, rest, hrest => by
    have htext : (renderList (e :: f :: es)).toList ++ rest
        = e.render.toList ++ ',' :: ' ' :: ((renderList (f :: es)).toList ++ rest) := by
      simp [renderList]
    rw [htext, scan_render e h.1 _ (.cons rfl _), scan_comma, scan_space,
      scan_renderList (f :: es) h.2 rest hrest]
    simp [listPieces]

theorem scan_renderPairs : ∀ pairs : List (Expr × Expr), WritablePairs pairs →
    ∀ rest : List Char, Apart rest →
      scan ((renderPairs pairs).toList ++ rest) = pairPieces pairs ++ scan rest
  | [], _, _, _ => rfl
  | [(key, value)], h, rest, hrest => by
    have htext : (renderPairs [(key, value)]).toList ++ rest
        = key.render.toList ++ ':' :: ' ' :: (value.render.toList ++ rest) := by
      simp [renderPairs]
    rw [htext, scan_render key h.1 _ (.cons rfl _), scan_colon, scan_space,
      scan_render value h.2.1 rest hrest]
    simp [pairPieces]
  | (key, value) :: pair :: pairs, h, rest, hrest => by
    have htext : (renderPairs ((key, value) :: pair :: pairs)).toList ++ rest
        = key.render.toList ++ ':' :: ' ' :: (value.render.toList ++
          ',' :: ' ' :: ((renderPairs (pair :: pairs)).toList ++ rest)) := by
      simp [renderPairs]
    rw [htext, scan_render key h.1 _ (.cons rfl _), scan_colon, scan_space,
      scan_render value h.2.1 _ (.cons rfl _), scan_comma, scan_space,
      scan_renderPairs (pair :: pairs) h.2.2 rest hrest]
    simp [pairPieces]

/-- A block ends in a brace, so nothing is asked of the text behind it. -/
theorem scan_renderBlock : ∀ b : Block, b.Writable → ∀ rest : List Char,
    scan (b.render.toList ++ rest) = b.pieces ++ scan rest
  | ⟨t, statements⟩, h, rest => by
    have htext : (Block.mk t statements).render.toList ++ rest
        = '\x7b' :: ((renderBody statements).toList ++ ' ' :: '\x7d' :: rest) := by
      simp [Block.render]
    rw [htext, scan_lBrace, scan_renderBody statements h, scan_space, scan_rBrace]
    simp [Block.pieces]

theorem scan_renderBody : ∀ ss : List Stmt, WritableBody ss → ∀ rest : List Char,
    scan ((renderBody ss).toList ++ rest) = bodyPieces ss ++ scan rest
  | [], _, _ => rfl
  | s :: ss, h, rest => by
    have htext : (renderBody (s :: ss)).toList ++ rest
        = ' ' :: (s.render.toList ++ ((renderBody ss).toList ++ rest)) := by simp [renderBody]
    rw [htext, scan_space, scan_renderStmt s h.1, scan_renderBody ss h.2, bodyPieces,
      List.append_assoc]

/-- The text of a statement is scanned to its pieces, whatever follows. -/
theorem scan_renderStmt : ∀ s : Stmt, s.Writable → ∀ rest : List Char,
    scan (s.render.toList ++ rest) = s.pieces ++ scan rest
  | .letBinding t name value, h, rest => by
    have htext : (Stmt.letBinding t name value).render.toList ++ rest
        = 'l' :: 'e' :: 't' :: ' ' :: (name.render.toList ++
          ' ' :: '=' :: ' ' :: (value.render.toList ++ ';' :: rest)) := by simp [Stmt.render]
    rw [htext, scan_let, scan_name h.1 (.cons rfl _), scan_space, scan_assign,
      scan_render value h.2 _ (.cons rfl _), scan_semicolon]
    simp [Stmt.pieces]
  | .returning t value, h, rest => by
    have htext : (Stmt.returning t value).render.toList ++ rest
        = 'r' :: 'e' :: 't' :: 'u' :: 'r' :: 'n' :: ' ' ::
          (value.render.toList ++ ';' :: rest) := by simp [Stmt.render]
    rw [htext, scan_return, scan_render value h _ (.cons rfl _), scan_semicolon]
    simp [Stmt.pieces]
  | .expression t e, h, rest => by
    have htext : (Stmt.expression t e).render.toList ++ rest
        = e.render.toList ++ ';' :: rest := by simp [Stmt.render]
    rw [htext, scan_render e h _ (.cons rfl _), scan_semicolon]
    simp [Stmt.pieces]
  | .block _, h, _ => absurd h id
  | .missing _, h, _ => absurd h id

end

end Ember
