import Ember.Source.Span
import Ember.Text.Quoted
import Ember.Token.Kind

/-!
# Tokens and token lists

A token is a kind, the text it was scanned from and its place. A token list is what the lexer hands
to the parser; one that is finished ends with an end-of-input token.
-/

namespace Ember

/-- A lexical unit. -/
structure Token where
  kind : Kind
  /-- The text scanned, without the quotes of a string. -/
  literal : String
  span : Span
  position : Position
deriving DecidableEq

namespace Token

/-- A token that stands for no source text. -/
def synthetic (kind : Kind) (literal : String) : Token := ⟨kind, literal, .dummy, .origin⟩

/-- The token that is read past the end of a list without an end of its own. -/
def endOfInput : Token := synthetic .eof ""

/-- The line of a token in a token listing. -/
def describe (t : Token) : String :=
  s!"{t.kind.label}({Text.quote t.literal}) @ {t.position.toText}"

end Token

/-- A sequence of tokens. -/
structure TokenList where
  tokens : List Token
deriving DecidableEq

namespace TokenList

/-- The list without tokens. -/
def empty : TokenList := ⟨[]⟩

/-- Adds a token at the end. -/
def push (l : TokenList) (t : Token) : TokenList := ⟨l.tokens ++ [t]⟩

/-- The end-of-input token that belongs after `tokens`: it stands at the end of the last of them. -/
def endAfter (tokens : List Token) : Token :=
  match tokens.getLast? with
  | none => .endOfInput
  | some t => ⟨.eof, "", ⟨t.span.stop, t.span.stop⟩, t.position⟩

/-- Ends the list with an end-of-input token, unless it already ends with one. -/
def finish (l : TokenList) : TokenList :=
  if (l.tokens.getLast?.map Token.kind) = some .eof then l
  else ⟨l.tokens ++ [endAfter l.tokens]⟩

/-- The list of the tokens up to the first end of input, which is added where it is missing. -/
def ofTokens (tokens : List Token) : TokenList :=
  match tokens.dropWhile (·.kind ≠ .eof) with
  | [] => finish ⟨tokens⟩
  | ending :: _ => ⟨tokens.takeWhile (·.kind ≠ .eof) ++ [ending]⟩

/-- The number of tokens. -/
def length (l : TokenList) : Nat := l.tokens.length

/-- Whether there is no token. -/
def isEmpty (l : TokenList) : Bool := l.tokens.isEmpty

/-- The token at an index. -/
def get? (l : TokenList) (i : Nat) : Option Token := l.tokens[i]?

/-- A finished list ends with an end of input. -/
theorem kind_getLast?_finish (l : TokenList) :
    l.finish.tokens.getLast?.map Token.kind = some .eof := by
  unfold finish
  split
  · assumption
  · simp only [List.getLast?_append, List.getLast?_singleton, Option.some_or, Option.map_some]
    unfold endAfter
    split <;> rfl

/-- Finishing twice is finishing once. -/
theorem finish_finish (l : TokenList) : l.finish.finish = l.finish := by
  rw [finish.eq_1 l.finish, if_pos (kind_getLast?_finish l)]

end TokenList

end Ember
