import Ember.Token.Basic

/-!
# Diagnostics

What the parser reports: which rule could not go on and the token at which it stopped. A diagnostic
never ends parsing. Its code says where the fault lies: a token that the lexer could not use is a
lexical fault, whatever rule met it.
-/

namespace Ember

/-- The codes that diagnostics are published under. -/
inductive DiagnosticCode where
  | unterminatedString
  | unknownCharacter
  | unexpectedToken
  | noExpression
  | integerTooLarge
  | nestedTooDeeply
deriving DecidableEq

namespace DiagnosticCode

/-- Every code, in the order of their numbers. -/
def all : List DiagnosticCode :=
  [unterminatedString, unknownCharacter, unexpectedToken, noExpression, integerTooLarge,
    nestedTooDeeply]

/-- How a code is written: its first digit tells lexical faults from faults of grammar. -/
def text : DiagnosticCode → String
  | unterminatedString => "E0001"
  | unknownCharacter => "E0002"
  | unexpectedToken => "E1001"
  | noExpression => "E1002"
  | integerTooLarge => "E1003"
  | nestedTooDeeply => "E1004"

/-- What a code means, in one line. -/
def description : DiagnosticCode → String
  | unterminatedString => "a string literal is missing its closing quote"
  | unknownCharacter => "the source contains a character the language does not use"
  | unexpectedToken => "the parser required a specific token and found another"
  | noExpression => "an expression was expected but the token cannot start one"
  | integerTooLarge => "an integer literal does not fit in a signed 64-bit integer"
  | nestedTooDeeply => "an expression is nested more deeply than the parser allows"

/-- The code with a given text, in which ASCII letters may be small. -/
def ofText? (code : String) : Option DiagnosticCode :=
  all.find? (·.text.toList == code.toList.map Char.toUpper)

theorem ofText?_text (c : DiagnosticCode) : ofText? c.text = some c := by
  cases c <;> decide +kernel

end DiagnosticCode

namespace Diagnostic

/-- What the parser could not do. -/
inductive Reason where
  /-- A token of the expected kind was required. -/
  | unexpectedToken (expected : Kind)
  /-- No expression starts with the token. -/
  | noPrefixRule
  /-- The numeral does not fit in 64 bits. -/
  | invalidInteger
  /-- The token would have opened a level beyond the limit. -/
  | nestedTooDeeply (limit : Nat)
deriving DecidableEq

end Diagnostic

/-- A fault that the parser reports: the reason and the token found. -/
structure Diagnostic where
  reason : Diagnostic.Reason
  found : Token
deriving DecidableEq

namespace Diagnostic

/-- The kind that was required, if one was. -/
def expected (d : Diagnostic) : Option Kind :=
  match d.reason with
  | .unexpectedToken kind => some kind
  | _ => none

/-- The code of a diagnostic. -/
def code (d : Diagnostic) : DiagnosticCode :=
  if d.found.kind = .illegal then
    if d.found.literal.toList.head? = some '"' then .unterminatedString else .unknownCharacter
  else
    match d.reason with
    | .unexpectedToken _ => .unexpectedToken
    | .noPrefixRule => .noExpression
    | .invalidInteger => .integerTooLarge
    | .nestedTooDeeply _ => .nestedTooDeeply

/-- What a diagnostic says, without its place. -/
def message (d : Diagnostic) : String :=
  match d.reason with
  | .unexpectedToken kind =>
    s!"expected next token to be {kind.name}, got {d.found.kind.name} instead"
  | .noPrefixRule =>
    if d.found.kind = .illegal then "illegal token " ++ Text.quote d.found.literal
    else s!"no prefix parse function for {d.found.kind.name} found"
  | .invalidInteger => "could not parse " ++ Text.quote d.found.literal ++ " as integer"
  | .nestedTooDeeply limit => s!"expression nested more than {limit} levels deep"

/-- The line that reports a diagnostic: place, code and message. -/
def render (d : Diagnostic) : String :=
  s!"{d.found.position.toText}: [{d.code.text}] {d.message}"

end Diagnostic

end Ember
