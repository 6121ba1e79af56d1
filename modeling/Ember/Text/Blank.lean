/-!
# Blank characters

Two sets are in use. The lexer skips four ASCII characters between tokens; text that a person typed
is trimmed of every character with the Unicode property `White_Space`.
-/

namespace Ember.Text

/-- Whether a character may stand between two tokens: space, tab, carriage return, line feed. -/
def isLayout (c : Char) : Bool := c == ' ' || c == '\t' || c == '\r' || c == '\n'

/-- Whether a character has the Unicode property `White_Space`. -/
def isBlank (c : Char) : Bool :=
  let n := c.toNat
  (0x09 ≤ n && n ≤ 0x0D) || n == 0x20 || n == 0x85 || n == 0xA0 || n == 0x1680 ||
    (0x2000 ≤ n && n ≤ 0x200A) || n == 0x2028 || n == 0x2029 || n == 0x202F || n == 0x205F ||
    n == 0x3000

/-- What the lexer skips is blank. -/
theorem isBlank_of_isLayout {c : Char} (h : isLayout c = true) : isBlank c = true := by
  simp only [isLayout, Bool.or_eq_true, beq_iff_eq] at h
  rcases h with ((rfl | rfl) | rfl) | rfl <;> decide

/-- A text without the blank characters at its two ends. -/
def trim (cs : List Char) : List Char :=
  ((cs.dropWhile isBlank).reverse.dropWhile isBlank).reverse

end Ember.Text
