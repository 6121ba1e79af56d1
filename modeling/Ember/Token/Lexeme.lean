import Ember.Text.Blank
import Ember.Token.Kind

/-!
# Lexemes

The longest lexeme that a text begins with. A text that begins with a digit begins with the whole
run of digits, one that begins with a letter or an underscore with the whole word, and so on; what
the language does not use becomes an illegal lexeme of one character. The exception is a quote
without a partner, which makes the whole rest of the text illegal.

Main statements: a lexeme and the rest make up the text (`text_append_rest`), and a lexeme is never
empty (`text_ne_nil`), so reading lexemes comes to an end.
-/

namespace Ember

/-- Whether a character may begin a word. -/
def isWordStart (c : Char) : Bool := c.isAlpha || c == '_'

/-- Whether a character may stand inside a word. -/
def isWordPart (c : Char) : Bool := c.isAlphanum || c == '_'

/-- Whether a character may stand inside a string. -/
def isStringPart (c : Char) : Bool := c != '"'

/-- The kind of a symbol of one character. -/
def Kind.ofSymbol? (c : Char) : Option Kind :=
  if c = '=' then some .assign
  else if c = '+' then some .plus
  else if c = '-' then some .minus
  else if c = '!' then some .bang
  else if c = '*' then some .asterisk
  else if c = '/' then some .slash
  else if c = '<' then some .lt
  else if c = '>' then some .gt
  else if c = ',' then some .comma
  else if c = ';' then some .semicolon
  else if c = ':' then some .colon
  else if c = '(' then some .lParen
  else if c = ')' then some .rParen
  else if c = '\x7b' then some .lBrace
  else if c = '\x7d' then some .rBrace
  else if c = '[' then some .lBracket
  else if c = ']' then some .rBracket
  else none

/-- The kind of a symbol of two characters. -/
def Kind.ofSymbolPair? (c d : Char) : Option Kind :=
  if d = '=' then
    if c = '=' then some .eq else if c = '!' then some .notEq else none
  else none

/-- A piece of text that is one token, and the text after it. -/
structure Lexeme where
  kind : Kind
  /-- The characters read, the quotes of a string included. -/
  text : List Char
  /-- The characters still to be read. -/
  rest : List Char

namespace Lexeme

/-- The longest symbol at the start of a text, or one illegal character. -/
def ofSymbol (c : Char) : List Char → Lexeme
  | [] => ⟨(Kind.ofSymbol? c).getD .illegal, [c], []⟩
  | d :: cs =>
    match Kind.ofSymbolPair? c d with
    | some kind => ⟨kind, [c, d], cs⟩
    | none => ⟨(Kind.ofSymbol? c).getD .illegal, [c], d :: cs⟩

/-- The string whose opening quote has been read: up to the next quote, else illegal. -/
def ofQuote (c : Char) (cs : List Char) : Lexeme :=
  match cs.dropWhile isStringPart with
  | [] => ⟨.illegal, c :: cs, []⟩
  | quote :: rest => ⟨.string, c :: (cs.takeWhile isStringPart ++ [quote]), rest⟩

/-- The longest lexeme at the start of the text that `c` begins and `cs` continues. -/
def read (c : Char) (cs : List Char) : Lexeme :=
  if c.isDigit then ⟨.int, c :: cs.takeWhile Char.isDigit, cs.dropWhile Char.isDigit⟩
  else if isWordStart c then
    ⟨.ofWord (String.ofList (c :: cs.takeWhile isWordPart)), c :: cs.takeWhile isWordPart,
      cs.dropWhile isWordPart⟩
  else if c = '"' then ofQuote c cs
  else ofSymbol c cs

/-- What a token keeps of the text: a string loses its quotes. -/
def literal (l : Lexeme) : String :=
  String.ofList (if l.kind = .string then l.text.tail.dropLast else l.text)

/-- Reading loses nothing. -/
theorem text_append_rest (c : Char) (cs : List Char) :
    (read c cs).text ++ (read c cs).rest = c :: cs := by
  unfold read
  split
  · simp
  split
  · simp
  split
  · unfold ofQuote
    split
    · simp
    · next h => simp [← h]
  · unfold ofSymbol
    split
    · simp
    · split <;> simp

/-- Reading takes at least the first character. -/
theorem text_ne_nil (c : Char) (cs : List Char) : (read c cs).text ≠ [] := by
  unfold read ofQuote ofSymbol
  repeat' split
  all_goals simp

/-- Reading leaves less than there was. -/
theorem length_rest_read (c : Char) (cs : List Char) :
    (read c cs).rest.length < (c :: cs).length := by
  have h := congrArg List.length (text_append_rest c cs)
  have hpos := List.length_pos_iff.mpr (text_ne_nil c cs)
  simp only [List.length_append] at h
  omega

end Lexeme

end Ember
