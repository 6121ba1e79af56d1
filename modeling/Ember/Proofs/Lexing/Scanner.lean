import Ember.Proofs.Lexing.Matcher
import Ember.Proofs.Lexing.Positions

/-!
# A lexer with a queue

The text may also be cut by a raw lexer, which is a parameter here: a `Matcher`, of which no more is
known than `Matcher.Granted` says. It finds declared tokens, and errors of one character or more.
`Scanner` is a lexer on top of that. It hands out an error character by character, so the tokens of
an error wait in a queue. It counts lines and columns in 32 bits, and only up to the last place that
it was asked for. An earlier place would be answered with the position of the later one.

A scanner is in front of the raw lexer's text only by what waits in its queue, and it is asked for
later and later places (`Scanner.Follows`). So it hands out what the lexer does, and its positions
are right (`Scanner.stream_located`).
-/

namespace Ember

/-! ## The raw lexer -/

/-- The text still to be cut and the byte offset at which it begins. -/
structure RawLexer where
  rest : List Char
  offset : Nat

/-- What the matcher finds next, the byte offset of its first character, and what is left. -/
def RawLexer.next (matcher : Matcher) (r : RawLexer) : Option (Found × Nat) × RawLexer :=
  match matcher r.rest with
  | none => (none, ⟨[], r.offset + utf8Length r.rest⟩)
  | some f =>
    let start := r.offset + utf8Length f.layout
    (some (f.found, start), ⟨f.rest, start + utf8Length f.found.text⟩)

/-- The raw lexer where a lexer is. -/
def Lexer.raw (l : Lexer) : RawLexer := ⟨l.rest, l.offset⟩

theorem RawLexer.next_of_some {matcher : Matcher} {r r' : RawLexer} {found : Found} {start : Nat}
    (h : r.next matcher = (some (found, start), r')) :
    r'.rest.length < r.rest.length ∧ r'.offset = start + utf8Length found.text := by
  unfold next at h
  split at h
  · cases h
  · next f hf =>
    cases h
    exact ⟨f.length_rest, rfl⟩

/-- The raw lexer finds nothing, the lexeme that the lexer finds, or a run of stray characters. -/
theorem Lexer.raw_next_cases {matcher : Matcher} (h : matcher.Granted) (l : Lexer) :
    (l.rest.dropWhile Text.isLayout = [] ∧ l.raw.next matcher = (none, l.skipLayout.raw)) ∨
      (∃ c cs t, l.rest.dropWhile Text.isLayout = c :: cs ∧ t.Makes (Lexeme.read c cs) ∧
        l.raw.next matcher = (some (.token t (Lexeme.read c cs).text, l.skipLayout.offset),
          (l.skipLayout.consume (Lexeme.read c cs).text (Lexeme.read c cs).rest).raw)) ∨
      ∃ c cs rest, l.rest.dropWhile Text.isLayout = c :: cs ++ rest ∧
        (∀ d ∈ c :: cs, isStray d = true) ∧
        l.raw.next matcher = (some (.error (c :: cs), l.skipLayout.offset),
          (l.skipLayout.consume (c :: cs) rest).raw) := by
  have hoffset : l.skipLayout.offset = l.offset + utf8Length (l.rest.takeWhile Text.isLayout) := rfl
  rcases h.find_cases l.rest with ⟨hnone, hdrop⟩ | ⟨f, hf, hlayout, hdrop, hfound⟩
  · have htake : l.rest.takeWhile Text.isLayout = l.rest := by
      have hsplit := List.takeWhile_append_dropWhile (p := Text.isLayout) (l := l.rest)
      rwa [hdrop, List.append_nil] at hsplit
    refine .inl ⟨hdrop, ?_⟩
    simp only [raw, RawLexer.next, hnone, hoffset, htake]
    rw [show l.skipLayout.rest = [] from hdrop]
  · have hnext : l.raw.next matcher = (some (f.found, l.skipLayout.offset),
        (l.skipLayout.consume f.found.text f.rest).raw) := by
      simp only [raw, RawLexer.next, hf, hlayout]
      rfl
    refine .inr ?_
    rw [hnext]
    rcases hfound with ⟨t, c, cs, hcs, hmakes, hfound, hrest⟩ | ⟨run, hfound, hstray⟩
    · rw [hfound, hrest]
      exact .inl ⟨c, cs, t, hcs, hmakes, rfl⟩
    · have hne := f.text_ne_nil
      rw [hfound] at hne hdrop ⊢
      obtain ⟨c, cs, rfl⟩ := List.exists_cons_of_ne_nil hne
      exact .inr ⟨c, cs, f.rest, hdrop, hstray, rfl⟩

/-! ## The scanner -/

/-- A raw lexer, the tokens that wait, and how far lines and columns are counted. -/
structure Scanner where
  source : String
  raw : RawLexer
  /-- The tokens of the last run that were not handed out yet. -/
  pending : List Token
  /-- The byte offset up to which `line` and `column` are counted. -/
  counted : Nat
  line : UInt32
  column : UInt32

/-- The illegal token that a stray character is. -/
def strayToken (offset : Nat) (p : Position) (c : Char) : Token :=
  ⟨.illegal, String.ofList [c], .ofRange offset (offset + c.utf8Size), p⟩

/-- The tokens of a run of stray characters from some place on. -/
def strayTokens : Nat → Position → List Char → List Token
  | _, _, [] => []
  | offset, p, c :: cs =>
    strayToken offset p c :: strayTokens (offset + c.utf8Size) (p.advance c) cs

namespace Scanner

/-- A scanner at the start of a text. -/
def ofString (source : String) : Scanner := ⟨source, ⟨source.toList, 0⟩, [], 0, 1, 1⟩

/-- The line and column reached. -/
def place (s : Scanner) : Position := ⟨s.line.toNat, s.column.toNat⟩

/-- Counts one character. -/
def count (s : Scanner) (c : Char) : Scanner :=
  if c = '\n' then { s with line := s.line + 1, column := 1 }
  else { s with column := s.column + 1 }

/-- Counts up to the character at a byte offset, unless it was passed already. -/
def countTo (s : Scanner) (offset : Nat) : Scanner :=
  match (Span.mk s.counted offset).slice s.source with
  | none => s
  | some skipped => { skipped.toList.foldl count s with counted := offset }

/-- Puts a token for each character of a run into the queue. -/
def queue (s : Scanner) (start : Nat) : List Char → Scanner
  | [] => s
  | c :: cs =>
    let s := s.countTo start
    queue { s with pending := s.pending ++ [strayToken start s.place c] } (start + c.utf8Size) cs

theorem exists_foldl_count (s : Scanner) (cs : List Char) :
    ∃ line column, cs.foldl count s = { s with line, column } := by
  induction cs generalizing s with
  | nil => exact ⟨s.line, s.column, rfl⟩
  | cons c cs ih =>
    obtain ⟨line, column, h⟩ := ih (s.count c)
    refine ⟨line, column, ?_⟩
    rw [List.foldl_cons, h, count]
    split <;> rfl

/-- Counting changes nothing but the place. -/
theorem exists_countTo (s : Scanner) (offset : Nat) :
    ∃ counted line column, s.countTo offset = { s with counted, line, column } := by
  unfold countTo
  split
  · exact ⟨s.counted, s.line, s.column, rfl⟩
  · next skipped _ =>
    obtain ⟨line, column, h⟩ := s.exists_foldl_count skipped.toList
    exact ⟨offset, line, column, by rw [h]⟩

@[simp] theorem source_countTo (s : Scanner) (offset : Nat) :
    (s.countTo offset).source = s.source := by
  obtain ⟨_, _, _, h⟩ := s.exists_countTo offset
  rw [h]

@[simp] theorem raw_countTo (s : Scanner) (offset : Nat) : (s.countTo offset).raw = s.raw := by
  obtain ⟨_, _, _, h⟩ := s.exists_countTo offset
  rw [h]

@[simp] theorem pending_countTo (s : Scanner) (offset : Nat) :
    (s.countTo offset).pending = s.pending := by
  obtain ⟨_, _, _, h⟩ := s.exists_countTo offset
  rw [h]

@[simp] theorem source_queue (s : Scanner) (start : Nat) (run : List Char) :
    (s.queue start run).source = s.source := by
  induction run generalizing s start with
  | nil => rfl
  | cons c cs ih => simp [queue, ih]

@[simp] theorem raw_queue (s : Scanner) (start : Nat) (run : List Char) :
    (s.queue start run).raw = s.raw := by
  induction run generalizing s start with
  | nil => rfl
  | cons c cs ih => simp [queue, ih]

/-- The next token and the scanner after it. -/
def next (matcher : Matcher) (s : Scanner) : Token × Scanner :=
  match s.pending with
  | t :: ts => (t, { s with pending := ts })
  | [] =>
    match _h : s.raw.next matcher with
    | (none, raw) =>
      let stop := s.source.utf8ByteSize
      let s := { s with raw }.countTo stop
      (⟨.eof, "", .ofRange stop stop, s.place⟩, s)
    | (some (.token t text, start), raw) =>
      let s := { s with raw }.countTo start
      (⟨t.kind text, t.literal text, .ofRange start raw.offset, s.place⟩, s)
    | (some (.error run, start), raw) => next matcher ({ s with raw }.queue start run)
termination_by s.raw.rest.length
decreasing_by
  rw [raw_queue]
  exact (RawLexer.next_of_some _h).1

@[simp] theorem source_next (matcher : Matcher) (s : Scanner) :
    (s.next matcher).2.source = s.source := by
  fun_induction next matcher s with
  | case1 => rfl
  | case2 => exact source_countTo _ _
  | case3 => exact source_countTo _ _
  | case4 _ _ _ _ _ _ ih => rw [ih, source_queue]

/-- The first `n` tokens, the end of input repeated where there are fewer. -/
def stream (matcher : Matcher) : Nat → Scanner → List Token
  | 0, _ => []
  | n + 1, s => (s.next matcher).1 :: stream matcher n (s.next matcher).2

/-! ## Counting up to a place -/

/-- The characters that were counted. -/
structure HasCounted (s : Scanner) (seen : List Char) : Prop where
  counted : s.counted = utf8Length seen
  place : s.place = Position.after .origin seen

section Counting

variable {s : Scanner} {seen before run rest : List Char}

/-- A text of less than 2³² - 1 bytes has lines and columns that fit in 32 bits. -/
theorem place_count (h : s.place = Position.after .origin seen) {c : Char}
    (hsize : (seen ++ [c]).length < 0xFFFFFFFF) :
    (s.count c).place = Position.after .origin (seen ++ [c]) := by
  obtain ⟨hline, hcolumn⟩ := Position.origin_after_le seen
  rw [← h] at hline hcolumn
  simp only [place, List.length_append, List.length_singleton] at hline hcolumn hsize
  rw [Position.after_append, ← h]
  unfold count
  by_cases hc : c = '\n'
  · have hnext : (s.line + 1).toNat = s.line.toNat + 1 := by
      rw [UInt32.toNat_add, UInt32.toNat_one, Nat.mod_eq_of_lt (by omega)]
    simp [hc, place, Position.advance, hnext]
  · have hnext : (s.column + 1).toNat = s.column.toNat + 1 := by
      rw [UInt32.toNat_add, UInt32.toNat_one, Nat.mod_eq_of_lt (by omega)]
    simp [hc, place, Position.advance, hnext]

theorem place_foldl_count (h : s.place = Position.after .origin seen) {skipped : List Char}
    (hsize : (seen ++ skipped).length < 0xFFFFFFFF) :
    (skipped.foldl count s).place = Position.after .origin (seen ++ skipped) := by
  induction skipped generalizing s seen with
  | nil => rwa [List.append_nil]
  | cons c cs ih =>
    rw [List.append_cons] at hsize ⊢
    refine ih (place_count h ?_) hsize
    rw [List.length_append] at hsize
    omega

/-- A later place is found. -/
theorem HasCounted.countTo (h : s.HasCounted seen) (hseen : seen <+: before)
    (hsource : s.source.toList = before ++ rest) (hsize : s.source.utf8ByteSize < 0xFFFFFFFF) :
    (s.countTo (utf8Length before)).HasCounted before := by
  obtain ⟨skipped, rfl⟩ := hseen
  have hlength : (seen ++ skipped).length < 0xFFFFFFFF := by
    have hle := length_le_utf8Length (seen ++ skipped)
    rw [← utf8Length_toList, hsource, utf8Length_append] at hsize
    omega
  have hcount : s.countTo (utf8Length (seen ++ skipped)) =
      { skipped.foldl count s with counted := utf8Length (seen ++ skipped) } := by
    unfold Scanner.countTo
    rw [h.counted, Span.slice_of_append hsource]
    simp only [String.toList_ofList]
  rw [hcount]
  exact ⟨rfl, place_foldl_count h.place hlength⟩

/-- The queue is given the tokens of the run, and counting stays within the run. -/
theorem HasCounted.queue (h : s.HasCounted seen) (hseen : seen <+: before)
    (hsource : s.source.toList = before ++ run ++ rest)
    (hsize : s.source.utf8ByteSize < 0xFFFFFFFF) :
    (s.queue (utf8Length before) run).pending =
        s.pending ++ strayTokens (utf8Length before) (Position.after .origin before) run ∧
      ∃ seen', seen' <+: before ++ run ∧ (s.queue (utf8Length before) run).HasCounted seen' := by
  induction run generalizing s seen before with
  | nil =>
    refine ⟨(List.append_nil _).symm, seen, ?_, h⟩
    rwa [List.append_nil]
  | cons c cs ih =>
    rw [List.append_assoc] at hsource
    -- The place of the first character is counted, and the others wait behind that character.
    have hcounted := h.countTo hseen hsource hsize
    rw [List.cons_append, List.append_cons, ← List.append_assoc] at hsource
    have hlength : utf8Length (before ++ [c]) = utf8Length before + c.utf8Size := by simp
    have hbehind : Position.after .origin (before ++ [c]) =
        (Position.after .origin before).advance c := by simp [Position.after_append]
    let waiting : Scanner := { s.countTo (utf8Length before) with
      pending := s.pending ++ [strayToken (utf8Length before) (Position.after .origin before) c] }
    have hwaiting : waiting.HasCounted before := ⟨hcounted.counted, hcounted.place⟩
    have hqueue : s.queue (utf8Length before) (c :: cs) =
        waiting.queue (utf8Length (before ++ [c])) cs := by
      rw [Scanner.queue, hcounted.place, hlength, pending_countTo]
    have hsame : waiting.source = s.source := source_countTo s _
    obtain ⟨hpending, hseen'⟩ := ih hwaiting (List.prefix_append before [c])
      (by rw [hsame, hsource]) (by rwa [hsame])
    rw [hqueue, List.append_cons before c cs]
    refine ⟨?_, hseen'⟩
    rw [hpending, hbehind, hlength, List.append_assoc]
    rfl

end Counting

/-! ## Scanner and lexer -/

/--
The scanner is where the lexer is, but for the characters `run` that are waiting in its queue. It
has counted no further than the raw lexer has cut the text.
-/
structure Follows (s : Scanner) (l : Lexer) (before run seen : List Char) : Prop where
  lexer : l.HasRead s.source before
  rest : l.rest = run ++ s.raw.rest
  offset : s.raw.offset = utf8Length (before ++ run)
  stray : ∀ c ∈ run, isStray c = true
  pending : s.pending = strayTokens l.offset l.position run
  counted : s.HasCounted seen
  seen_prefix : seen <+: before ++ run

end Scanner

namespace Lexer

variable {l : Lexer} {c : Char} {cs : List Char}

theorem skipLayout_of_head (h : ∀ c ∈ l.rest.head?, Text.isLayout c = false) :
    l.skipLayout = l := by
  have hlayout : ([] ++ l.rest).takeWhile Text.isLayout = [] ∧
      ([] ++ l.rest).dropWhile Text.isLayout = l.rest := takeWhile_run (List.forall_mem_nil _) h
  rw [List.nil_append] at hlayout
  rw [skipLayout, hlayout.1, hlayout.2]
  rfl

/-- Skipping layout first makes no difference. -/
theorem next_skipLayout (l : Lexer) : l.skipLayout.next = l.next := by
  rw [next, skipLayout_of_head]
  · rfl
  · intro c hc
    have hhead := List.head?_dropWhile_not Text.isLayout l.rest
    have hrest : (l.rest.dropWhile Text.isLayout).head? = some c := hc
    simpa [hrest] using hhead

theorem next_of_stray (h : l.rest = c :: cs) (hc : isStray c = true) :
    l.next = (strayToken l.offset l.position c, l.consume [c] cs) := by
  have hlayout : ∀ d ∈ l.rest.head?, Text.isLayout d = false := by
    intro d hd
    rw [h] at hd
    cases hd
    exact (isStray_iff.mp hc).1
  have hskip := skipLayout_of_head hlayout
  have hdrop : l.rest.dropWhile Text.isLayout = c :: cs :=
    (congrArg Lexer.rest hskip).trans h
  rw [next_of_cons hdrop, hskip, Lexeme.read_of_isStray hc]
  rfl

end Lexer

namespace Scanner

section Step

variable {s : Scanner} {l : Lexer} {before run seen : List Char} {c : Char}
  (matcher : Matcher)

theorem follows_ofString (source : String) :
    (ofString source).Follows (Lexer.ofString source) [] [] [] where
  lexer := .ofString source
  rest := rfl
  offset := rfl
  stray := List.forall_mem_nil _
  pending := rfl
  counted := ⟨rfl, rfl⟩
  seen_prefix := List.prefix_refl _

/-- What waits is handed out first. -/
theorem Follows.next_of_cons (h : s.Follows l before (c :: run) seen) :
    (s.next matcher).1 = l.next.1 ∧
      (s.next matcher).2.Follows l.next.2 (before ++ [c]) run seen := by
  obtain ⟨hc, hrun⟩ := List.forall_mem_cons.mp h.stray
  have hnext : s.next matcher = (strayToken l.offset l.position c,
      { s with pending := strayTokens (l.offset + c.utf8Size) (l.position.advance c) run }) := by
    rw [next, h.pending]
    rfl
  rw [hnext, Lexer.next_of_stray h.rest hc]
  refine ⟨rfl, ?_⟩
  exact {
    lexer := h.lexer.consume h.rest
    rest := rfl
    offset := by rw [h.offset, List.append_cons]
    stray := hrun
    pending := rfl
    counted := ⟨h.counted.counted, h.counted.place⟩
    seen_prefix := by rw [← List.append_cons]; exact h.seen_prefix }

theorem next_of_none (hpending : s.pending = []) {raw : RawLexer}
    (h : s.raw.next matcher = (none, raw)) :
    let stop := s.source.utf8ByteSize
    let s' := { s with raw }.countTo stop
    s.next matcher = (⟨.eof, "", .ofRange stop stop, s'.place⟩, s') := by
  rw [next, hpending]
  simp only
  split <;> simp_all

theorem next_of_token (hpending : s.pending = []) {t : RawToken} {text : List Char} {start : Nat}
    {raw : RawLexer} (h : s.raw.next matcher = (some (.token t text, start), raw)) :
    let s' := { s with raw }.countTo start
    s.next matcher =
      (⟨t.kind text, t.literal text, .ofRange start raw.offset, s'.place⟩, s') := by
  rw [next, hpending]
  simp only
  split <;> simp_all

theorem next_of_error (hpending : s.pending = []) {start : Nat} {raw : RawLexer}
    (h : s.raw.next matcher = (some (.error run, start), raw)) :
    s.next matcher = ({ s with raw }.queue start run).next matcher := by
  rw [next, hpending]
  simp only
  split <;> simp_all

/-- With nothing in the queue the raw lexer is where the lexer is. -/
theorem Follows.raw_eq (h : s.Follows l before [] seen) : s.raw = l.raw := by
  rw [Lexer.raw, h.rest, h.lexer.offset, ← List.append_nil before, ← h.offset]
  rfl

variable (hsize : s.source.utf8ByteSize < 0xFFFFFFFF)
include hsize

/-- Where the next lexeme begins, lines and columns are counted right. -/
theorem Follows.hasCounted (h : s.Follows l before [] seen) (raw : RawLexer) :
    ({ s with raw }.countTo l.skipLayout.offset).HasCounted
      (before ++ l.rest.takeWhile Text.isLayout) := by
  have hcounted : { s with raw }.HasCounted seen := ⟨h.counted.counted, h.counted.place⟩
  have hseen : seen <+: before := by simpa using h.seen_prefix
  rw [h.lexer.skipLayout.offset]
  exact hcounted.countTo (hseen.trans (List.prefix_append _ _)) h.lexer.skipLayout.split hsize

/-- Once the place is counted, the scanner follows the lexer past a text. -/
theorem Follows.countTo (h : s.Follows l before [] seen) {l' : Lexer} {text : List Char}
    (hread : l'.HasRead s.source (before ++ l.rest.takeWhile Text.isLayout ++ text)) :
    ({ s with raw := l'.raw }.countTo l.skipLayout.offset).Follows l'
      (before ++ l.rest.takeWhile Text.isLayout ++ text) []
      (before ++ l.rest.takeWhile Text.isLayout) where
  lexer := by rwa [source_countTo]
  rest := by rw [raw_countTo]; rfl
  offset := by rw [raw_countTo, List.append_nil]; exact hread.offset
  stray := List.forall_mem_nil _
  pending := by rw [pending_countTo]; exact h.pending
  counted := h.hasCounted hsize _
  seen_prefix := by rw [List.append_nil]; exact List.prefix_append _ _

/-- Once a run is queued, the scanner follows the lexer to the start of the run. -/
theorem Follows.queue (h : s.Follows l before [] seen) {rest : List Char}
    (hrest : l.skipLayout.rest = run ++ rest) (hstray : ∀ c ∈ run, isStray c = true) :
    ∃ seen', ({ s with raw := (l.skipLayout.consume run rest).raw }.queue l.skipLayout.offset
      run).Follows l.skipLayout (before ++ l.rest.takeWhile Text.isLayout) run seen' := by
  have hread := h.lexer.skipLayout
  have hseen : seen <+: before := by simpa using h.seen_prefix
  have hsource : s.source.toList = before ++ l.rest.takeWhile Text.isLayout ++ run ++ rest := by
    rw [hread.split, hrest, List.append_assoc _ run]
  let cut : Scanner := { s with raw := (l.skipLayout.consume run rest).raw }
  have hcounted : cut.HasCounted seen := ⟨h.counted.counted, h.counted.place⟩
  obtain ⟨hpending, seen', hprefix, hcounted'⟩ :=
    hcounted.queue (hseen.trans (List.prefix_append _ _)) hsource hsize
  rw [← hread.offset] at hpending hcounted'
  refine ⟨seen', ?_⟩
  exact {
    lexer := by rw [source_queue]; exact hread
    rest := by rw [raw_queue, hrest]; rfl
    offset := by rw [raw_queue]; exact (hread.consume hrest).offset
    stray := hstray
    pending := by rw [hpending, hread.position, show cut.pending = [] from h.pending]; rfl
    counted := hcounted'
    seen_prefix := hprefix }

variable {matcher}

/-- With nothing in the queue the raw lexer is asked. -/
theorem Follows.next_of_nil (hm : matcher.Granted) (h : s.Follows l before [] seen) :
    (s.next matcher).1 = l.next.1 ∧ ∃ before' run' seen',
      (s.next matcher).2.Follows l.next.2 before' run' seen' := by
  have hread := h.lexer.skipLayout
  have hplace : ∀ raw, ({ s with raw }.countTo l.skipLayout.offset).place = l.skipLayout.position :=
    fun raw => (h.hasCounted hsize raw).place.trans hread.position.symm
  rcases l.raw_next_cases hm with
    ⟨hdrop, hnext⟩ | ⟨c, cs, t, hdrop, hmakes, hnext⟩ | ⟨c, cs, rest, hdrop, hstray, hnext⟩
  all_goals rw [← h.raw_eq] at hnext
  · have hrest : l.skipLayout.rest = [] := hdrop
    have hstop : s.source.utf8ByteSize = l.skipLayout.offset := by
      rw [hread.offset, ← utf8Length_toList, hread.split, hrest, List.append_nil]
    have hend : l.skipLayout.HasRead s.source (before ++ l.rest.takeWhile Text.isLayout ++ []) := by
      rwa [List.append_nil]
    rw [next_of_none _ h.pending hnext, Lexer.next_of_nil hdrop, hstop]
    refine ⟨?_, ⟨_, _, _, h.countTo hsize hend⟩⟩
    rw [hplace]
    rfl
  · have htext : l.skipLayout.rest = (Lexeme.read c cs).text ++ (Lexeme.read c cs).rest :=
      Eq.trans hdrop (Lexeme.text_append_rest c cs).symm
    rw [next_of_token _ h.pending hnext, Lexer.next_of_cons hdrop]
    refine ⟨?_, ⟨_, _, _, h.countTo hsize (hread.consume htext)⟩⟩
    rw [hplace, hmakes.kind_eq, hmakes.literal_eq]
    rfl
  · -- What is queued makes the scanner hand out the first character of the run.
    obtain ⟨seen', hqueued⟩ := h.queue hsize hdrop hstray
    obtain ⟨htoken, hfollows⟩ := hqueued.next_of_cons matcher
    rw [l.next_skipLayout] at htoken hfollows
    rw [next_of_error _ h.pending hnext]
    exact ⟨htoken, ⟨_, _, _, hfollows⟩⟩

/-- A scanner that follows a lexer hands out the same tokens. -/
theorem Follows.stream_eq (hm : matcher.Granted) (h : s.Follows l before run seen) (n : Nat) :
    stream matcher n s = l.stream n := by
  induction n generalizing s l before run seen with
  | zero => rfl
  | succ n ih =>
    have hsize' : (s.next matcher).2.source.utf8ByteSize < 0xFFFFFFFF := by rwa [source_next]
    rw [stream, Lexer.stream]
    cases run with
    | nil =>
      obtain ⟨htoken, _, _, _, hfollows⟩ := h.next_of_nil hsize hm
      rw [htoken, ih hsize' hfollows]
    | cons c run =>
      obtain ⟨htoken, hfollows⟩ := h.next_of_cons matcher
      rw [htoken, ih hsize' hfollows]

end Step

/--
Of a text of less than 2³² - 1 bytes, a scanner hands out the tokens that the lexer does, whatever
the matcher, if it keeps to what is granted. Each of them, also every illegal one from the queue and
every end of input, is where its span says: its line is one more than the number of line feeds
before its span, and its column is one more than the number of characters between the last of them,
or the start of the text, and its span.
-/
theorem stream_located {matcher : Matcher} (hm : matcher.Granted) {source : String}
    (h : source.utf8ByteSize < 0xFFFFFFFF) (n : Nat) :
    stream matcher n (ofString source) = (Lexer.ofString source).stream n ∧
      ∀ t ∈ stream matcher n (ofString source), t.LocatedIn source := by
  have hstream : stream matcher n (ofString source) = (Lexer.ofString source).stream n :=
    (follows_ofString source).stream_eq h hm n
  refine ⟨hstream, ?_⟩
  rw [hstream]
  exact (Lexer.HasRead.ofString source).located_stream (Nat.le_of_lt h) n

/-- A string over two lines, characters beyond ASCII, and two ends of input. -/
theorem stream_located_lines :
    let source := "\"é\n\" §€x"
    let matcher := Matcher.ofRuns fun _ => 7
    matcher.Granted ∧ source.utf8ByteSize < 0xFFFFFFFF ∧
      (stream matcher 6 (ofString source)).map Token.position =
        [⟨1, 1⟩, ⟨2, 3⟩, ⟨2, 4⟩, ⟨2, 5⟩, ⟨2, 6⟩, ⟨2, 6⟩] ∧
      (stream matcher 6 (ofString source)).map (fun t => t.span.start) =
        [0, 6, 8, 11, 12, 12] ∧
      ∀ t ∈ stream matcher 6 (ofString source), t.LocatedIn source := by
  intro source matcher
  have hmatcher : matcher.Granted := .ofRuns _
  have hsize : source.utf8ByteSize < 0xFFFFFFFF := by decide +kernel
  obtain ⟨hstream, hlocated⟩ := stream_located hmatcher hsize 6
  refine ⟨hmatcher, hsize, ?_, ?_, hlocated⟩
  · rw [hstream]
    decide +kernel
  · rw [hstream]
    decide +kernel

end Scanner

end Ember
