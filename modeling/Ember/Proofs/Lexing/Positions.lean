import Ember.Proofs.Lexing.Spans

/-!
# Lines and columns

The lexer counts lines and columns as it goes and never looks back. The position behind a text
depends on the line feeds in it and on what follows the last of them (`Position.origin_after`). A
token that starts behind a text has the position behind that text (`Token.LocatedIn`). This goes for
every token that is handed out, for the end of input as often as it is
(`Lexer.HasRead.located_stream`).
-/

namespace Ember

/-! ## Counting -/

namespace Position

theorem line_after (p : Position) (cs : List Char) :
    (p.after cs).line = p.line + cs.count '\n' := by
  induction cs generalizing p with
  | nil => rfl
  | cons c cs ih =>
    rw [after_cons, ih, advance]
    by_cases hc : c = '\n'
    · simp [hc, Nat.add_right_comm, Nat.add_assoc]
    · simp [hc]

/-- Within a line only the column moves. -/
theorem after_of_not_mem {cs : List Char} (h : '\n' ∉ cs) (p : Position) :
    p.after cs = ⟨p.line, p.column + cs.length⟩ := by
  induction cs generalizing p with
  | nil => rfl
  | cons c cs ih =>
    obtain ⟨hc, hcs⟩ := List.ne_and_not_mem_of_not_mem_cons h
    rw [after_cons, ih hcs, advance, if_neg hc.symm]
    simp [Nat.add_right_comm, Nat.add_assoc]

/-- The position behind whole lines and a part of the next one. -/
theorem origin_after {lines line : List Char} (hlines : lines = [] ∨ ∃ ds, lines = ds ++ ['\n'])
    (hline : '\n' ∉ line) :
    origin.after (lines ++ line) = ⟨1 + (lines ++ line).count '\n', 1 + line.length⟩ := by
  have hcolumn : (origin.after lines).column = 1 := by
    rcases hlines with rfl | ⟨ds, rfl⟩
    · rfl
    · simp [after_append, advance]
  have hcount : (lines ++ line).count '\n' = lines.count '\n' := by
    rw [List.count_append, List.count_eq_zero_of_not_mem hline, Nat.add_zero]
  rw [after_append, after_of_not_mem hline, line_after, hcolumn, hcount]
  rfl

end Position

/-- A text is whole lines and a part of the next one. -/
theorem exists_lines (cs : List Char) :
    ∃ lines line, cs = lines ++ line ∧ (lines = [] ∨ ∃ ds, lines = ds ++ ['\n']) ∧
      '\n' ∉ line := by
  induction cs with
  | nil => exact ⟨[], [], rfl, .inl rfl, List.not_mem_nil⟩
  | cons c cs ih =>
    obtain ⟨lines, line, rfl, hlines, hline⟩ := ih
    rcases hlines with rfl | ⟨ds, rfl⟩
    · by_cases hc : c = '\n'
      · exact ⟨[c], line, rfl, .inr ⟨[], by rw [hc]; rfl⟩, hline⟩
      · exact ⟨[], c :: line, rfl, .inl rfl, by simp [Ne.symm hc, hline]⟩
    · exact ⟨c :: (ds ++ ['\n']), line, rfl, .inr ⟨c :: ds, rfl⟩, hline⟩

/-- Lines and columns do not count more than the characters. -/
theorem Position.origin_after_le (cs : List Char) :
    (Position.after .origin cs).line ≤ 1 + cs.length ∧
      (Position.after .origin cs).column ≤ 1 + cs.length := by
  obtain ⟨lines, line, rfl, hlines, hline⟩ := exists_lines cs
  rw [origin_after hlines hline]
  have hcount := List.count_le_length (a := '\n') (l := lines ++ line)
  simp only [List.length_append] at hcount ⊢
  omega

theorem length_le_utf8Length (cs : List Char) : cs.length ≤ utf8Length cs := by
  induction cs with
  | nil => exact Nat.le_refl 0
  | cons c cs ih =>
    have hpos := c.utf8Size_pos
    rw [utf8Length_cons, List.length_cons]
    omega

/-! ## The tokens of a lexer -/

/--
The token starts behind whole lines of a text and a part of the next one, and its line and column
say how many lines these are and how many characters.
-/
inductive Token.LocatedIn (source : String) (t : Token) : Prop
  | intro (lines line rest : List Char) (split : source.toList = lines ++ line ++ rest)
      (start : t.span.start = utf8Length (lines ++ line))
      (lines_end : lines = [] ∨ ∃ ds, lines = ds ++ ['\n']) (same_line : '\n' ∉ line)
      (line_eq : t.position.line = 1 + (lines ++ line).count '\n')
      (column_eq : t.position.column = 1 + line.length)

theorem Token.LocatedIn.of_after {source : String} {t : Token} {before rest : List Char}
    (hsource : source.toList = before ++ rest) (hstart : t.span.start = utf8Length before)
    (hposition : t.position = Position.after .origin before) : t.LocatedIn source := by
  obtain ⟨lines, line, rfl, hlines, hline⟩ := exists_lines before
  rw [Position.origin_after hlines hline] at hposition
  exact ⟨lines, line, rest, hsource, hstart, hlines, hline, by rw [hposition], by rw [hposition]⟩

namespace Lexer

/-- The lexer has read this part of a text and counted its bytes and lines. -/
structure HasRead (source : String) (before : List Char) (l : Lexer) : Prop where
  split : source.toList = before ++ l.rest
  offset : l.offset = utf8Length before
  position : l.position = Position.after .origin before

namespace HasRead

variable {source : String} {before text rest : List Char} {l : Lexer}

theorem ofString (source : String) : (Lexer.ofString source).HasRead source [] := ⟨rfl, rfl, rfl⟩

theorem consume (h : l.HasRead source before) (hrest : l.rest = text ++ rest) :
    (l.consume text rest).HasRead source (before ++ text) where
  split := by rw [h.split, hrest, List.append_assoc]; rfl
  offset := by rw [utf8Length_append, ← h.offset]; rfl
  position := by rw [Position.after_append, ← h.position]; rfl

theorem skipLayout (h : l.HasRead source before) :
    l.skipLayout.HasRead source (before ++ l.rest.takeWhile Text.isLayout) :=
  h.consume List.takeWhile_append_dropWhile.symm

theorem size_le (h : l.HasRead source before) : l.offset ≤ source.utf8ByteSize := by
  rw [← utf8Length_toList, h.split, h.offset, utf8Length_append]
  exact Nat.le_add_right _ _

/-- Where no layout comes next, the token that is handed out starts behind what was read. -/
theorem located_take (h : l.HasRead source before) (hsize : source.utf8ByteSize ≤ Span.maxOffset) :
    l.take.1.LocatedIn source ∧ ∃ text, l.take.2.HasRead source (before ++ text) := by
  have hstart : min l.offset Span.maxOffset = utf8Length before := by
    rw [Nat.min_eq_left (Nat.le_trans h.size_le hsize), h.offset]
  unfold take
  cases hrest : l.rest with
  | nil => exact ⟨.of_after h.split hstart h.position, [], by rwa [List.append_nil]⟩
  | cons c cs =>
    exact ⟨.of_after h.split hstart h.position, _,
      h.consume (by rw [hrest, Lexeme.text_append_rest])⟩

/-- Every token that is handed out is where its span and its position say. -/
theorem located_stream (h : l.HasRead source before)
    (hsize : source.utf8ByteSize ≤ Span.maxOffset) (n : Nat) :
    ∀ t ∈ l.stream n, t.LocatedIn source := by
  induction n generalizing l before with
  | zero => exact List.forall_mem_nil _
  | succ n ih =>
    obtain ⟨hlocated, text, hread⟩ := h.skipLayout.located_take hsize
    exact List.forall_mem_cons.mpr ⟨hlocated, ih hread⟩

end HasRead

end Lexer

end Ember
