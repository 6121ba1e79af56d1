/-!
# Places in a source text

A token knows its place twice. A `Span` is a half-open range of UTF-8 byte offsets and cuts the
text out again; a `Position` is a line and a column, both from 1, and is what messages show.

## Limits

Offsets are kept in 32 bits. `Span.ofRange` clamps a larger offset to the largest one there is, so
building a span never fails.
-/

namespace Ember

/-! ## Bytes of a text -/

/-- The number of bytes that characters take in UTF-8. -/
def utf8Length : List Char → Nat
  | [] => 0
  | c :: cs => c.utf8Size + utf8Length cs

@[simp] theorem utf8Length_nil : utf8Length [] = 0 := rfl

@[simp] theorem utf8Length_cons (c : Char) (cs : List Char) :
    utf8Length (c :: cs) = c.utf8Size + utf8Length cs := rfl

@[simp] theorem utf8Length_append (cs ds : List Char) :
    utf8Length (cs ++ ds) = utf8Length cs + utf8Length ds := by
  induction cs with
  | nil => simp
  | cons c cs ih => simp [ih, Nat.add_assoc]

/-- What is left after the first `n` bytes, if a character ends there. -/
def dropBytes? : Nat → List Char → Option (List Char)
  | 0, cs => some cs
  | _ + 1, [] => none
  | n + 1, c :: cs => if c.utf8Size ≤ n + 1 then dropBytes? (n + 1 - c.utf8Size) cs else none

/-- The first `n` bytes, if a character ends there. -/
def takeBytes? : Nat → List Char → Option (List Char)
  | 0, _ => some []
  | _ + 1, [] => none
  | n + 1, c :: cs =>
    if c.utf8Size ≤ n + 1 then (takeBytes? (n + 1 - c.utf8Size) cs).map (c :: ·) else none

/-! ## Spans -/

/-- A half-open range of byte offsets. -/
structure Span where
  start : Nat
  stop : Nat
deriving DecidableEq

namespace Span

/-- The largest offset that a span holds. -/
def maxOffset : Nat := 0xFFFFFFFF

/-- The span of tokens that stand for no source text. -/
def dummy : Span := ⟨0, 0⟩

/-- The span of a range of offsets, each clamped to the largest one that a span holds. -/
def ofRange (start stop : Nat) : Span := ⟨min start maxOffset, min stop maxOffset⟩

/-- The number of bytes covered, which is zero for a reversed span. -/
def length (s : Span) : Nat := s.stop - s.start

/-- Whether no byte is covered. -/
def isEmpty (s : Span) : Bool := s.stop ≤ s.start

theorem isEmpty_iff (s : Span) : s.isEmpty = true ↔ s.length = 0 := by
  simp [isEmpty, length]; omega

/-- The smallest span that covers both. -/
def merge (s t : Span) : Span := ⟨min s.start t.start, max s.stop t.stop⟩

/--
The text that a span covers. There is none when the span is reversed, reaches past the end of the
text, or cuts a character in two.
-/
def slice (s : Span) (source : String) : Option String :=
  if s.stop < s.start then none
  else ((dropBytes? s.start source.toList).bind (takeBytes? s.length)).map String.ofList

/-- A span is written `start..stop`. -/
def toText (s : Span) : String := s!"{s.start}..{s.stop}"

end Span

/-! ## Positions -/

/-- A line and a column, both counted from 1; columns count characters. -/
structure Position where
  line : Nat
  column : Nat
deriving DecidableEq

namespace Position

/-- The first character of a text. -/
def origin : Position := ⟨1, 1⟩

/-- Where the next character stands: only a line feed starts a line. -/
def advance (p : Position) (c : Char) : Position :=
  if c = '\n' then ⟨p.line + 1, 1⟩ else ⟨p.line, p.column + 1⟩

/-- Where the character after `cs` stands. -/
def after (p : Position) (cs : List Char) : Position := cs.foldl advance p

@[simp] theorem after_nil (p : Position) : p.after [] = p := rfl

@[simp] theorem after_cons (p : Position) (c : Char) (cs : List Char) :
    p.after (c :: cs) = (p.advance c).after cs := rfl

theorem after_append (p : Position) (cs ds : List Char) :
    p.after (cs ++ ds) = (p.after cs).after ds := by
  simp [after, List.foldl_append]

/-- A position is written `line:column`. -/
def toText (p : Position) : String := s!"{p.line}:{p.column}"

end Position

end Ember
