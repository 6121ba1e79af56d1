/-!
# Kinds of tokens

The alphabet that the grammar is written in. A kind has two spellings: its `label`, which the token
listing shows, and its `name`, which messages show.
-/

namespace Ember

/-- The kind of a lexical unit. -/
inductive Kind where
  /-- A character that the language does not use, or a string without a closing quote. -/
  | illegal
  /-- The end of the input. -/
  | eof
  | ident
  | int
  | string
  | assign
  | plus
  | minus
  | bang
  | asterisk
  | slash
  | lt
  | gt
  | eq
  | notEq
  | comma
  | semicolon
  | colon
  | lParen
  | rParen
  | lBrace
  | rBrace
  | lBracket
  | rBracket
  | kwFn
  | kwLet
  | kwTrue
  | kwFalse
  | kwIf
  | kwElse
  | kwReturn
deriving DecidableEq

namespace Kind

/-- Every kind. -/
def all : List Kind :=
  [illegal, eof, ident, int, string, assign, plus, minus, bang, asterisk, slash, lt, gt, eq, notEq,
    comma, semicolon, colon, lParen, rParen, lBrace, rBrace, lBracket, rBracket, kwFn, kwLet,
    kwTrue, kwFalse, kwIf, kwElse, kwReturn]

theorem mem_all (k : Kind) : k ∈ all := by
  cases k <;> decide

/-! ## Reserved words -/

/-- The kind of a reserved word. -/
def ofKeyword? (word : String) : Option Kind :=
  if word = "fn" then some kwFn
  else if word = "let" then some kwLet
  else if word = "true" then some kwTrue
  else if word = "false" then some kwFalse
  else if word = "if" then some kwIf
  else if word = "else" then some kwElse
  else if word = "return" then some kwReturn
  else none

/-- The kind of a complete run of identifier characters: a reserved word or a plain name. -/
def ofWord (word : String) : Kind := (ofKeyword? word).getD ident

/-- Whether the kind is that of a reserved word. -/
def isKeyword : Kind → Bool
  | kwFn | kwLet | kwTrue | kwFalse | kwIf | kwElse | kwReturn => true
  | _ => false

theorem isKeyword_of_ofKeyword? {word : String} {k : Kind} (h : ofKeyword? word = some k) :
    k.isKeyword = true := by
  unfold ofKeyword? at h
  repeat' split at h
  all_goals first | (cases h; rfl) | cases h

/-! ## Spellings -/

/-- The name of a kind in a token listing. -/
def label : Kind → String
  | illegal => "Illegal"
  | eof => "Eof"
  | ident => "Ident"
  | int => "Int"
  | string => "String"
  | assign => "Assign"
  | plus => "Plus"
  | minus => "Minus"
  | bang => "Bang"
  | asterisk => "Asterisk"
  | slash => "Slash"
  | lt => "Lt"
  | gt => "Gt"
  | eq => "Eq"
  | notEq => "NotEq"
  | comma => "Comma"
  | semicolon => "Semicolon"
  | colon => "Colon"
  | lParen => "LParen"
  | rParen => "RParen"
  | lBrace => "LBrace"
  | rBrace => "RBrace"
  | lBracket => "LBracket"
  | rBracket => "RBracket"
  | kwFn => "Function"
  | kwLet => "Let"
  | kwTrue => "True"
  | kwFalse => "False"
  | kwIf => "If"
  | kwElse => "Else"
  | kwReturn => "Return"

/-- The kind with a given label. -/
def ofLabel? (text : String) : Option Kind := all.find? (·.label == text)

theorem ofLabel?_label (k : Kind) : ofLabel? k.label = some k := by
  cases k <;> decide

/-- The name of a kind in messages: a symbol shows itself, every other kind a word in capitals. -/
def name : Kind → String
  | illegal => "ILLEGAL"
  | eof => "EOF"
  | ident => "IDENT"
  | int => "INT"
  | string => "STRING"
  | assign => "="
  | plus => "+"
  | minus => "-"
  | bang => "!"
  | asterisk => "*"
  | slash => "/"
  | lt => "<"
  | gt => ">"
  | eq => "=="
  | notEq => "!="
  | comma => ","
  | semicolon => ";"
  | colon => ":"
  | lParen => "("
  | rParen => ")"
  | lBrace => "\x7b"
  | rBrace => "\x7d"
  | lBracket => "["
  | rBracket => "]"
  | kwFn => "FUNCTION"
  | kwLet => "LET"
  | kwTrue => "TRUE"
  | kwFalse => "FALSE"
  | kwIf => "IF"
  | kwElse => "ELSE"
  | kwReturn => "RETURN"

end Kind

end Ember
