import Ember.Text.Printable

/-!
# Quoted text

Text inside double quotes, with every character that would not be seen as itself replaced by an
escape: a short one for tab, carriage return, line feed, quote, backslash and the null character,
and `\u` with the code point in braces for the rest of the unprintable ones. A single quote stays
as it is.
-/

namespace Ember.Text

/-- How one character is shown inside quotes. -/
def escape (c : Char) : List Char :=
  if c = '\x00' then ['\\', '0']
  else if c = '\t' then ['\\', 't']
  else if c = '\r' then ['\\', 'r']
  else if c = '\n' then ['\\', 'n']
  else if c = '"' then ['\\', '"']
  else if c = '\\' then ['\\', '\\']
  else if isPrintable c then [c]
  else ['\\', 'u', '\x7b'] ++ Nat.toDigits 16 c.toNat ++ ['\x7d']

/-- Text in quotes, escaped where it has to be. -/
def quote (text : String) : String :=
  String.ofList (['"'] ++ text.toList.flatMap escape ++ ['"'])

end Ember.Text
