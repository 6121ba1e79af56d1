import Ember.Token.Basic
import Ember.Token.Lexeme

/-!
# From text to tokens

A `Lexer` is the text still to be read and the place reached. `Lexer.next` hands out one token at a
time and, at the end of the text, the end-of-input token for ever; `TokenList.ofSource` collects the
tokens of a whole text up to the first of those. Lexing never fails: what the language does not use
becomes illegal tokens.

## Termination

A token other than the end of input takes at least one character (`Lexer.length_rest_next`).
-/

namespace Ember

/-- The text still to be read and where it stands in the source. -/
structure Lexer where
  rest : List Char
  /-- Byte offset of the first character to be read. -/
  offset : Nat
  /-- Line and column of the first character to be read. -/
  position : Position

namespace Lexer

/-- A lexer at the start of a text. -/
def ofString (source : String) : Lexer := ⟨source.toList, 0, .origin⟩

/-- The lexer after `text`, with `rest` still to be read. -/
def consume (l : Lexer) (text rest : List Char) : Lexer :=
  ⟨rest, l.offset + utf8Length text, l.position.after text⟩

/-- The lexer after the layout characters that come next. -/
def skipLayout (l : Lexer) : Lexer :=
  l.consume (l.rest.takeWhile Text.isLayout) (l.rest.dropWhile Text.isLayout)

/-- The token that a lexeme read at this place makes. -/
def tokenOf (l : Lexer) (lexeme : Lexeme) : Token :=
  ⟨lexeme.kind, lexeme.literal, .ofRange l.offset (l.offset + utf8Length lexeme.text), l.position⟩

/-- The end of input at this place. -/
def endToken (l : Lexer) : Token := ⟨.eof, "", .ofRange l.offset l.offset, l.position⟩

/-- The token at this place, where no layout character stands, and the lexer after it. -/
def take (l : Lexer) : Token × Lexer :=
  match l.rest with
  | [] => (l.endToken, l)
  | c :: cs =>
    let lexeme := Lexeme.read c cs
    (l.tokenOf lexeme, l.consume lexeme.text lexeme.rest)

/-- The next token and the lexer after it. -/
def next (l : Lexer) : Token × Lexer := l.skipLayout.take

theorem length_rest_skipLayout (l : Lexer) : l.skipLayout.rest.length ≤ l.rest.length :=
  (List.dropWhile_sublist Text.isLayout).length_le

/-- A token other than the end of input takes at least one character. -/
theorem length_rest_next {l : Lexer} (h : l.next.1.kind ≠ .eof) :
    l.next.2.rest.length < l.rest.length := by
  have hskip := l.length_rest_skipLayout
  unfold next take at h ⊢
  split at h
  · exact absurd rfl h
  · next c cs hrest =>
    have := Lexeme.length_rest_read c cs
    rw [hrest] at hskip
    exact Nat.lt_of_lt_of_le this hskip

/-- The tokens up to and with the first end of input. -/
def tokens (l : Lexer) : List Token :=
  if _h : l.next.1.kind = .eof then [l.next.1] else l.next.1 :: l.next.2.tokens
termination_by l.rest.length
decreasing_by exact length_rest_next _h

/-- The first `n` tokens, the end of input repeated where there are fewer. -/
def stream : Nat → Lexer → List Token
  | 0, _ => []
  | n + 1, l => l.next.1 :: stream n l.next.2

end Lexer

/-- The tokens of a source text, with the end of input last. -/
def TokenList.ofSource (source : String) : TokenList := ⟨(Lexer.ofString source).tokens⟩

end Ember
