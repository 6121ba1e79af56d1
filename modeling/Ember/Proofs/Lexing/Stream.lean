import Mathlib.Logic.Function.Iterate
import Ember.Proofs.Lexing.Scanner

/-!
# Token by token, or all at once

Whoever asks for one token after another gets the tokens of the whole text and then its end of input
for ever, the same each time. `HandsOut` says so of anything that gives out tokens. It holds of the
lexer without a queue (`Lexer.handsOut`) and of the one with a queue (`Scanner.Queued.handsOut`).

A text of any size is meant here, also one in which 32 bits are too few to count lines and columns.
What is left of a token without these is its `Token.cut`. The queue neither drops nor repeats a
token and lets none overtake another: the cuts are those of what the raw lexer finds, one find after
the other (`Scanner.Queued.map_cut_tokens`), and the lexer without a queue makes the same
(`Lexer.map_cut_tokens`). All of this together is `Scanner.stream_continues`, for any matcher of
which `Matcher.Granted` holds.
-/

namespace Ember

/-! ## Handing out tokens -/

/--
A stream, given by its first tokens for each number of them, goes through a list of tokens and then
repeats the last of them, which is the only end of input in the list.
-/
def Continues (stream : Nat → List Token) (tokens : List Token) : Prop :=
  ∃ ts ending, tokens = ts ++ [ending] ∧ ending.kind = .eof ∧ (∀ t ∈ ts, t.kind ≠ .eof) ∧
    ∀ n, stream n = (tokens ++ List.replicate n ending).take n

section HandsOut

variable {σ : Type} {next : σ → Token × σ} {ending : Token} {s : σ} {ts : List Token}

variable (next ending) in
/--
From a state on, the tokens of a list are handed out, none of them an end of input, and then nothing
but `ending`, in a state that stays what it is.
-/
inductive HandsOut : σ → List Token → Prop
  | ended {s t : σ} (first : next s = (ending, t)) (again : next t = (ending, t)) : HandsOut s []
  | token {s s' : σ} {t : Token} {ts : List Token} (first : next s = (t, s'))
      (kind : t.kind ≠ .eof) (rest : HandsOut s' ts) : HandsOut s (t :: ts)

namespace HandsOut

theorem kind_ne_eof (h : HandsOut next ending s ts) : ∀ t ∈ ts, t.kind ≠ .eof := by
  induction h with
  | ended => exact List.forall_mem_nil _
  | token _ kind _ ih => exact List.forall_mem_cons.mpr ⟨kind, ih⟩

/-- Tokens that are taken one by one are those of the list, and the ending again and again. -/
theorem stream_eq {stream : Nat → σ → List Token} (h : HandsOut next ending s ts)
    (zero : ∀ s, stream 0 s = [])
    (succ : ∀ n s, stream (n + 1) s = (next s).1 :: stream n (next s).2) (n : Nat) :
    stream n s = (ts ++ [ending] ++ List.replicate n ending).take n := by
  induction h generalizing n with
  | @ended s t first again =>
    have hover : ∀ n, stream n t = List.replicate n ending := by
      intro n
      induction n with
      | zero => exact zero t
      | succ n ih => rw [succ, again, ih, List.replicate_succ]
    cases n with
    | zero => exact zero s
    | succ n =>
      rw [succ, first, hover, List.nil_append, List.singleton_append, List.take_succ_cons,
        List.take_replicate, Nat.min_eq_left (Nat.le_succ n)]
  | @token s s' t ts first _ _ ih =>
    cases n with
    | zero => exact zero s
    | succ n =>
      have hlength : n ≤ (ts ++ [ending] ++ List.replicate n ending).length := by
        rw [List.length_append, List.length_replicate]
        exact Nat.le_add_left _ _
      rw [succ, first, ih, List.cons_append, List.cons_append, List.take_succ_cons,
        List.replicate_succ', ← List.append_assoc _ (List.replicate n ending),
        List.take_append_of_le_length hlength]

theorem continues {stream : Nat → σ → List Token} (h : HandsOut next ending s ts)
    (hending : ending.kind = .eof) (zero : ∀ s, stream 0 s = [])
    (succ : ∀ n s, stream (n + 1) s = (next s).1 :: stream n (next s).2) :
    Continues (fun n => stream n s) (ts ++ [ending]) :=
  ⟨ts, ending, rfl, hending, h.kind_ne_eof, h.stream_eq zero succ⟩

theorem tail (h : HandsOut next ending s ts) : HandsOut next ending (next s).2 ts.tail := by
  cases h with
  | ended first again =>
    rw [first]
    exact .ended again again
  | token first _ rest =>
    rw [first]
    exact rest

/-- After some tokens it is the others that are handed out. -/
theorem drop (h : HandsOut next ending s ts) (k : Nat) :
    HandsOut next ending ((fun s => (next s).2)^[k] s) (ts.drop k) := by
  induction k generalizing s ts with
  | zero => exact h
  | succ k ih =>
    rw [← List.drop_tail]
    exact ih h.tail

end HandsOut

end HandsOut

namespace Lexer

theorem next_skipLayout_of_nil {l : Lexer} (h : l.rest.dropWhile Text.isLayout = []) :
    l.skipLayout.next = (l.skipLayout.endToken, l.skipLayout) := by
  rw [next_skipLayout, next_of_nil h]

/-- The lexer hands out the tokens of its text and then the end of input. -/
theorem handsOut (l : Lexer) : ∃ ts ending, l.tokens = ts ++ [ending] ∧ ending.kind = .eof ∧
    HandsOut next ending l ts := by
  induction l using Lexer.tokens_induction with
  | ending l hrest =>
    exact ⟨[], _, rfl, rfl, .ended (next_of_nil hrest) (next_skipLayout_of_nil hrest)⟩
  | token l c cs ts hrest ih =>
    obtain ⟨ts, ending, rfl, hending, ih⟩ := ih
    exact ⟨_ :: ts, ending, rfl, hending, .token (next_of_cons hrest) (kind_read_ne_eof c cs) ih⟩

end Lexer

/-! ## The finds of the raw lexer -/

/-- What a token is, apart from its line and column. -/
abbrev Cut := Kind × String × Span

/-- The cut of a token. -/
def Token.cut (t : Token) : Cut := (t.kind, t.literal, t.span)

/-- The cuts of the tokens that a find makes where it begins: one, or one for each character. -/
def Found.cuts (start : Nat) : Found → List Cut
  | .token t text => [(t.kind text, t.literal text, .ofRange start (start + utf8Length text))]
  | .error run => (strayTokens start .origin run).map Token.cut

/-- The positions of stray tokens make no difference to their cuts. -/
theorem map_cut_strayTokens (start : Nat) (p q : Position) (run : List Char) :
    (strayTokens start p run).map Token.cut = (strayTokens start q run).map Token.cut := by
  induction run generalizing start p q with
  | nil => rfl
  | cons c cs ih =>
    rw [strayTokens, strayTokens, List.map_cons, List.map_cons, ih _ _ (q.advance c)]
    rfl

namespace RawLexer

variable (matcher : Matcher) {r r' : RawLexer}

/-- No end of input is declared. -/
theorem kind_ne_eof_of_next {matcher : Matcher} (hm : matcher.Granted) {t : RawToken}
    {text : List Char} {start : Nat} (h : r.next matcher = (some (.token t text, start), r')) :
    t.kind text ≠ .eof := by
  rcases Lexer.raw_next_cases hm ⟨r.rest, r.offset, .origin⟩ with
    ⟨-, hnext⟩ | ⟨c, cs, t, -, hmakes, hnext⟩ | ⟨c, cs, rest, -, -, hnext⟩
  · cases h.symm.trans hnext
  · cases h.symm.trans hnext
    rw [hmakes.kind_eq]
    exact kind_read_ne_eof c cs
  · cases h.symm.trans hnext

/-- At the end of the text nothing is found again. -/
theorem next_of_next_eq_none (h : r.next matcher = (none, r')) : r'.next matcher = (none, r') := by
  have hnil : matcher [] = none :=
    Option.eq_none_iff_forall_ne_some.mpr fun f _ => absurd f.length_rest (Nat.not_lt_zero _)
  unfold next at h
  split at h
  · cases h
    simp [next, hnil]
  · cases h

/-- Everything that is found, each with the byte offset at which it begins. -/
def finds (r : RawLexer) : List (Found × Nat) :=
  match _h : r.next matcher with
  | (none, _) => []
  | (some find, r') => find :: finds r'
termination_by r.rest.length
decreasing_by exact (next_of_some _h).1

theorem finds_of_none (h : r.next matcher = (none, r')) : r.finds matcher = [] := by
  rw [finds]
  split <;> simp_all

theorem finds_of_some {find : Found × Nat} (h : r.next matcher = (some find, r')) :
    r.finds matcher = find :: r'.finds matcher := by
  rw [finds]
  split <;> simp_all

end RawLexer

/-! ## The lexer without a queue -/

namespace Lexer

variable {l : Lexer} {text rest : List Char}

/-- The byte offset at which the text ends. -/
def stop (l : Lexer) : Nat := l.offset + utf8Length l.rest

theorem stop_consume (h : l.rest = text ++ rest) : (l.consume text rest).stop = l.stop := by
  rw [stop, stop, h, utf8Length_append, ← Nat.add_assoc]
  rfl

theorem stop_skipLayout (l : Lexer) : l.skipLayout.stop = l.stop :=
  stop_consume List.takeWhile_append_dropWhile.symm

theorem tokens_skipLayout (l : Lexer) : l.skipLayout.tokens = l.tokens := by
  rw [tokens, next_skipLayout, ← tokens]

/-- Stray characters are tokens one by one. -/
theorem tokens_of_strays {run : List Char} (hrest : l.rest = run ++ rest)
    (hrun : ∀ c ∈ run, isStray c = true) :
    l.tokens = strayTokens l.offset l.position run ++ (l.consume run rest).tokens := by
  induction run generalizing l with
  | nil =>
    have hl : l.consume [] rest = l := by
      obtain ⟨_, _, _⟩ := l
      cases hrest
      rfl
    rw [hl]
    rfl
  | cons c cs ih =>
    obtain ⟨hc, hcs⟩ := List.forall_mem_cons.mp hrun
    have hnext : l.next = (strayToken l.offset l.position c, l.consume [c] (cs ++ rest)) :=
      next_of_stray hrest hc
    have hconsume : (l.consume [c] (cs ++ rest)).consume cs rest = l.consume (c :: cs) rest := by
      simp [consume, Nat.add_assoc]
    have hillegal : Kind.illegal ≠ .eof := by decide
    have hkind : (strayToken l.offset l.position c).kind ≠ .eof := hillegal
    rw [tokens, hnext, dif_neg hkind, ih (l := l.consume [c] (cs ++ rest)) rfl hcs, hconsume]
    rfl

variable (matcher : Matcher)

/-- The lexer makes the cuts of what the raw lexer finds, one find after the other. -/
theorem map_cut_tokens {matcher : Matcher} (hm : matcher.Granted) (l : Lexer) :
    l.tokens.map Token.cut = ((l.raw.finds matcher).flatMap fun (find, start) => find.cuts start) ++
      [(.eof, "", .ofRange l.stop l.stop)] := by
  -- On the text that is left: each find takes a part of it.
  induction hn : l.rest.length using Nat.strongRecOn generalizing l with
  | ind n ih =>
    rcases l.raw_next_cases hm with
      ⟨hdrop, hnext⟩ | ⟨c, cs, t, hdrop, hmakes, hnext⟩ | ⟨c, cs, rest, hdrop, hstray, hnext⟩
    · have hstop : l.skipLayout.offset = l.stop := by
        rw [← stop_skipLayout, stop, show l.skipLayout.rest = [] from hdrop]
        rfl
      rw [RawLexer.finds_of_none matcher hnext, tokens_of_nil hdrop, ← hstop]
      rfl
    · have hlt := (RawLexer.next_of_some hnext).1
      have hrest : l.skipLayout.rest = (Lexeme.read c cs).text ++ (Lexeme.read c cs).rest :=
        Eq.trans hdrop (Lexeme.text_append_rest c cs).symm
      have hih := ih _ (hn ▸ hlt)
        (l.skipLayout.consume (Lexeme.read c cs).text (Lexeme.read c cs).rest) rfl
      rw [stop_consume hrest, stop_skipLayout] at hih
      have hcut : (l.skipLayout.tokenOf (Lexeme.read c cs)).cut ::
          (l.skipLayout.consume (Lexeme.read c cs).text (Lexeme.read c cs).rest).tokens.map
            Token.cut = (Found.token t (Lexeme.read c cs).text).cuts l.skipLayout.offset ++
              (l.skipLayout.consume (Lexeme.read c cs).text (Lexeme.read c cs).rest).tokens.map
                Token.cut := by
        rw [Found.cuts, hmakes.kind_eq, hmakes.literal_eq]
        rfl
      rw [RawLexer.finds_of_some matcher hnext, tokens_of_cons hdrop, List.map_cons, hcut, hih,
        List.flatMap_cons, List.append_assoc]
    · have hlt := (RawLexer.next_of_some hnext).1
      have hih := ih _ (hn ▸ hlt) (l.skipLayout.consume (c :: cs) rest) rfl
      rw [stop_consume hdrop, stop_skipLayout] at hih
      rw [RawLexer.finds_of_some matcher hnext, ← tokens_skipLayout, tokens_of_strays hdrop hstray,
        List.map_append, hih, map_cut_strayTokens _ _ .origin, List.flatMap_cons,
        List.append_assoc]
      rfl

end Lexer

/-! ## The lexer with a queue -/

theorem Span.slice_self (offset : Nat) (source : String) :
    slice ⟨offset, offset⟩ source = none ∨ slice ⟨offset, offset⟩ source = some "" := by
  unfold slice
  rw [if_neg (Nat.lt_irrefl offset), length, Nat.sub_self]
  cases dropBytes? offset source.toList with
  | none => exact .inl rfl
  | some cs => exact .inr (by simp [takeBytes?])

namespace Scanner

variable (matcher : Matcher) {s : Scanner}

/-- A run is put into the queue character by character, behind what waits there. -/
theorem map_cut_pending_queue (s : Scanner) (start : Nat) (run : List Char) :
    (s.queue start run).pending.map Token.cut =
      s.pending.map Token.cut ++ (strayTokens start .origin run).map Token.cut := by
  induction run generalizing s start with
  | nil => exact (List.append_nil _).symm
  | cons c cs ih =>
    rw [queue, ih, List.map_append, List.append_assoc, pending_countTo, strayTokens,
      map_cut_strayTokens _ _ (Position.origin.advance c)]
    rfl

/-- What waits in the queue is illegal. -/
def Queued (s : Scanner) : Prop := ∀ t ∈ s.pending, t.kind = .illegal

theorem Queued.queue (h : s.Queued) (start : Nat) (run : List Char) :
    (s.queue start run).Queued := by
  induction run generalizing s start with
  | nil => exact h
  | cons c cs ih =>
    refine ih (fun t ht => ?_) _
    rw [pending_countTo, List.mem_append, List.mem_singleton] at ht
    rcases ht with ht | rfl
    · exact h t ht
    · rfl

theorem Queued.next (h : s.Queued) : (s.next matcher).2.Queued := by
  fun_induction Scanner.next matcher s with
  | case1 s t ts hpending =>
    intro u hu
    exact h u (hpending ▸ List.mem_cons_of_mem t hu)
  | case2 => exact fun t ht => h t (by rwa [pending_countTo] at ht)
  | case3 => exact fun t ht => h t (by rwa [pending_countTo] at ht)
  | case4 s _ run start raw _ ih => exact ih (Queued.queue (s := { s with raw }) h start run)

/-- A token that is not an end of input is taken from the text or from the queue. -/
theorem lt_of_next (h : (s.next matcher).1.kind ≠ .eof) :
    (s.next matcher).2.raw.rest.length < s.raw.rest.length ∨
      (s.next matcher).2.raw.rest.length = s.raw.rest.length ∧
        (s.next matcher).2.pending.length < s.pending.length := by
  fun_induction Scanner.next matcher s with
  | case1 s t ts hpending =>
    rw [hpending]
    exact .inr ⟨rfl, Nat.lt_succ_self _⟩
  | case2 => exact absurd rfl h
  | case3 s _ t text start raw hraw =>
    rw [raw_countTo]
    exact .inl (RawLexer.next_of_some hraw).1
  | case4 s _ run start raw hraw ih =>
    have hlt := (RawLexer.next_of_some hraw).1
    have hqueue := ih h
    simp only [raw_queue] at hqueue
    exact .inl (by omega)

/-- The tokens up to and with the first end of input. -/
def tokens (s : Scanner) : List Token :=
  if _h : (s.next matcher).1.kind = .eof then [(s.next matcher).1]
  else (s.next matcher).1 :: tokens (s.next matcher).2
termination_by (s.raw.rest.length, s.pending.length)
decreasing_by exact Prod.lex_def.mpr (s.lt_of_next matcher _h)

/-- The cuts of what waits and of what the raw lexer is still to find. -/
def ahead (s : Scanner) : List Cut :=
  s.pending.map Token.cut ++ (s.raw.finds matcher).flatMap fun (find, start) => find.cuts start

/-- A run that is put into the queue is ahead as it was before. -/
theorem ahead_queue (hpending : s.pending = []) {run : List Char} {start : Nat} {raw : RawLexer}
    (h : s.raw.next matcher = (some (.error run, start), raw)) :
    ({ s with raw }.queue start run).ahead matcher = s.ahead matcher := by
  rw [ahead, map_cut_pending_queue, raw_queue, ahead, RawLexer.finds_of_some matcher h,
    List.flatMap_cons, hpending]
  rfl

/-- What is handed out is what is ahead first. -/
theorem ahead_next (h : (s.next matcher).1.kind ≠ .eof) :
    s.ahead matcher = (s.next matcher).1.cut :: (s.next matcher).2.ahead matcher := by
  fun_induction Scanner.next matcher s with
  | case1 s t ts hpending =>
    rw [ahead, hpending]
    rfl
  | case2 => exact absurd rfl h
  | case3 s hpending t text start raw hraw =>
    rw [ahead, ahead, raw_countTo, pending_countTo, RawLexer.finds_of_some matcher hraw, hpending,
      (RawLexer.next_of_some hraw).2]
    rfl
  | case4 s hpending run start raw hraw ih => rw [← ahead_queue matcher hpending hraw, ih h]

/-- Counting again up to the same place makes no difference. -/
theorem countTo_countTo (s : Scanner) (offset : Nat) :
    (s.countTo offset).countTo offset = s.countTo offset := by
  cases hslice : (Span.mk s.counted offset).slice s.source with
  | none =>
    have hnone : s.countTo offset = s := by simp only [countTo, hslice]
    rw [hnone, hnone]
  | some skipped =>
    have hcounted : (s.countTo offset).counted = offset := by simp only [countTo, hslice]
    generalize s.countTo offset = s' at hcounted
    unfold countTo
    rw [hcounted]
    rcases Span.slice_self offset s'.source with h | h
    · rw [h]
    · rw [h]
      cases hcounted
      rfl

/-- Where nothing is left and everything is counted, the scanner stays. -/
theorem next_of_end (hpending : s.pending = []) (hraw : s.raw.next matcher = (none, s.raw))
    (hcount : s.countTo s.source.utf8ByteSize = s) :
    s.next matcher =
      (⟨.eof, "", .ofRange s.source.utf8ByteSize s.source.utf8ByteSize, s.place⟩, s) := by
  have hnext : s.next matcher = (⟨.eof, "", .ofRange s.source.utf8ByteSize s.source.utf8ByteSize,
      (s.countTo s.source.utf8ByteSize).place⟩, s.countTo s.source.utf8ByteSize) :=
    next_of_none matcher hpending hraw
  rwa [hcount] at hnext

/-- An end of input leaves nothing behind, and what follows is the same end of input. -/
theorem next_of_eof (hm : matcher.Granted) (hqueued : s.Queued)
    (h : (s.next matcher).1.kind = .eof) :
    s.ahead matcher = [] ∧ (s.next matcher).2.next matcher = s.next matcher ∧
      (s.next matcher).1.cut =
        (.eof, "", .ofRange s.source.utf8ByteSize s.source.utf8ByteSize) := by
  fun_induction Scanner.next matcher s with
  | case1 s t ts hpending =>
    have hillegal := hqueued t (hpending ▸ List.mem_cons_self)
    rw [show t.kind = .eof from h] at hillegal
    cases hillegal
  | case2 s hpending raw hraw stop s' =>
    have hraw' : s'.raw.next matcher = (none, s'.raw) := by
      rw [raw_countTo]
      exact RawLexer.next_of_next_eq_none matcher hraw
    have hnext := next_of_end matcher (s := s') (by rwa [pending_countTo]) hraw'
      (by rw [source_countTo]; exact countTo_countTo _ _)
    rw [source_countTo] at hnext
    refine ⟨?_, hnext, rfl⟩
    rw [ahead, hpending, RawLexer.finds_of_none matcher hraw]
    rfl
  | case3 s hpending t text start raw hraw =>
    exact absurd h (RawLexer.kind_ne_eof_of_next hm hraw)
  | case4 s hpending run start raw hraw ih =>
    obtain ⟨hahead, hnext, hcut⟩ := ih (Queued.queue (s := { s with raw }) hqueued start run) h
    rw [ahead_queue matcher hpending hraw] at hahead
    rw [source_queue] at hcut
    exact ⟨hahead, hnext, hcut⟩

theorem tokens_of_eof (h : (s.next matcher).1.kind = .eof) :
    s.tokens matcher = [(s.next matcher).1] := by
  rw [tokens, dif_pos h]

theorem tokens_of_ne_eof (h : (s.next matcher).1.kind ≠ .eof) :
    s.tokens matcher = (s.next matcher).1 :: (s.next matcher).2.tokens matcher := by
  rw [tokens, dif_neg h]

section Granted

variable {matcher} (hm : matcher.Granted)
include hm

/-- What is ahead is handed out, and then the end of input. -/
theorem Queued.map_cut_tokens (h : s.Queued) :
    (s.tokens matcher).map Token.cut =
      s.ahead matcher ++ [(.eof, "", .ofRange s.source.utf8ByteSize s.source.utf8ByteSize)] := by
  induction s using tokens.induct matcher with
  | case1 s hkind =>
    obtain ⟨hahead, -, hcut⟩ := next_of_eof _ hm h hkind
    rw [tokens_of_eof _ hkind, hahead, List.map_singleton, hcut]
    rfl
  | case2 s hkind ih =>
    rw [tokens_of_ne_eof _ hkind, List.map_cons, ih (h.next matcher), ahead_next _ hkind,
      source_next]
    rfl

/-- The scanner hands out the tokens of its text and then the end of input. -/
theorem Queued.handsOut (h : s.Queued) :
    ∃ ts ending, s.tokens matcher = ts ++ [ending] ∧ ending.kind = .eof ∧
      HandsOut (Scanner.next matcher) ending s ts := by
  induction s using tokens.induct matcher with
  | case1 s hkind =>
    obtain ⟨-, hnext, -⟩ := next_of_eof _ hm h hkind
    exact ⟨[], _, tokens_of_eof _ hkind, hkind, .ended rfl hnext⟩
  | case2 s hkind ih =>
    obtain ⟨ts, ending, htokens, hending, hout⟩ := ih (h.next matcher)
    refine ⟨(s.next matcher).1 :: ts, ending, ?_, hending, .token rfl hkind hout⟩
    rw [tokens_of_ne_eof _ hkind, htokens]
    rfl

omit hm in
/-- What waits in the queue is handed out first. -/
theorem Queued.pending_first (h : s.Queued) {ts : List Token} {ending : Token}
    (hending : ending.kind = .eof) (hout : HandsOut (Scanner.next matcher) ending s ts) :
    s.pending <+: ts := by
  induction hout with
  | @ended s t first _ =>
    cases hpending : s.pending with
    | nil => exact List.prefix_refl _
    | cons u us =>
      rw [Scanner.next, hpending] at first
      cases first
      cases hending.symm.trans (h ending (hpending ▸ List.mem_cons_self))
  | @token s s' t ts first _ _ ih =>
    cases hpending : s.pending with
    | nil => exact List.nil_prefix
    | cons u us =>
      have hnext := h.next matcher
      rw [Scanner.next, hpending] at first hnext
      cases first
      exact List.cons_prefix_cons.mpr ⟨rfl, ih hnext⟩

/-- A scanner that follows a lexer hands out the same token and follows it further. -/
theorem Follows.next {l : Lexer} {before run seen : List Char}
    (h : s.Follows l before run seen) (hsize : s.source.utf8ByteSize < 0xFFFFFFFF) :
    (s.next matcher).1 = l.next.1 ∧ ∃ before' run' seen',
      (s.next matcher).2.Follows l.next.2 before' run' seen' := by
  cases run with
  | nil => exact h.next_of_nil hsize hm
  | cons c run =>
    obtain ⟨htoken, hfollows⟩ := h.next_of_cons matcher
    exact ⟨htoken, _, _, _, hfollows⟩

/-- Both have the same tokens in front of them. -/
theorem Follows.tokens_eq {l : Lexer} {before run seen : List Char}
    (h : s.Follows l before run seen) (hsize : s.source.utf8ByteSize < 0xFFFFFFFF) :
    s.tokens matcher = l.tokens := by
  induction s using tokens.induct matcher generalizing l before run seen with
  | case1 s hkind =>
    obtain ⟨htoken, -⟩ := h.next hm hsize
    rw [tokens_of_eof _ hkind, Lexer.tokens, ← htoken, dif_pos hkind]
  | case2 s hkind ih =>
    obtain ⟨htoken, _, _, _, hfollows⟩ := h.next hm hsize
    have hsize' : (s.next matcher).2.source.utf8ByteSize < 0xFFFFFFFF := by rwa [source_next]
    rw [tokens_of_ne_eof _ hkind, Lexer.tokens, ← htoken, dif_neg hkind, ih hfollows hsize']

omit hm in
theorem Queued.iterate (h : s.Queued) (k : Nat) :
    ((fun s => (s.next matcher).2)^[k] s).Queued := by
  induction k generalizing s with
  | zero => exact h
  | succ k ih => exact ih (h.next matcher)

end Granted

/--
Whoever takes the tokens of a text one by one gets those of the whole text and then the end of input
again and again, both from the lexer and from the scanner on top of a raw lexer, whatever the
matcher of that, if it keeps to what is granted.

The scanner hands out what the raw lexer finds, one find after the other, and each character of an
error by itself: nothing is left out, repeated or out of order. The lexer cuts the text the same
way, and the tokens of a text of less than 2³² - 1 bytes have the same lines and columns. However
many tokens were handed out, those that wait in the queue are the next ones.
-/
theorem stream_continues {matcher : Matcher} (hm : matcher.Granted) (source : String) :
    Continues (fun n => (Lexer.ofString source).stream n) (TokenList.ofSource source).tokens ∧
      Continues (fun n => stream matcher n (ofString source)) ((ofString source).tokens matcher) ∧
      ((ofString source).tokens matcher).map Token.cut =
        (((ofString source).raw.finds matcher).flatMap fun (find, start) => find.cuts start) ++
          [(.eof, "", .ofRange source.utf8ByteSize source.utf8ByteSize)] ∧
      (TokenList.ofSource source).tokens.map Token.cut =
        ((ofString source).tokens matcher).map Token.cut ∧
      (source.utf8ByteSize < 0xFFFFFFFF →
        (ofString source).tokens matcher = (TokenList.ofSource source).tokens) ∧
      ∀ k, ((fun s => (s.next matcher).2)^[k] (ofString source)).pending <+:
        ((ofString source).tokens matcher).drop k := by
  have hqueued : (ofString source).Queued := List.forall_mem_nil _
  have hcuts := hqueued.map_cut_tokens hm
  obtain ⟨ts, ending, htokens, hending, hout⟩ := (Lexer.ofString source).handsOut
  obtain ⟨us, ending', htokens', hending', hout'⟩ := hqueued.handsOut hm
  refine ⟨?_, ?_, hcuts, ?_, (follows_ofString source).tokens_eq hm, fun k => ?_⟩
  · show Continues _ (Lexer.ofString source).tokens
    rw [htokens]
    exact hout.continues hending (fun _ => rfl) (fun _ _ => rfl)
  · rw [htokens']
    exact hout'.continues hending' (fun _ => rfl) (fun _ _ => rfl)
  · have hstop : (Lexer.ofString source).stop = source.utf8ByteSize := by
      rw [Lexer.stop, ← utf8Length_toList]
      exact Nat.zero_add _
    rw [hcuts]
    show (Lexer.ofString source).tokens.map Token.cut = _
    rw [Lexer.map_cut_tokens hm, hstop]
    rfl
  · have hprefix := (hqueued.iterate k).pending_first hending' (hout'.drop k)
    rw [htokens', List.drop_append]
    exact hprefix.trans (List.prefix_append _ _)

/-- Two stray characters that the raw lexer finds together, between two names. -/
theorem stream_continues_strays :
    let source := "x §€ y"
    let matcher := Matcher.ofRuns fun _ => 7
    matcher.Granted ∧ source.utf8ByteSize < 0xFFFFFFFF ∧
      (ofString source).tokens matcher = (TokenList.ofSource source).tokens ∧
      ((ofString source).tokens matcher).map Token.cut =
        [(.ident, "x", ⟨0, 1⟩), (.illegal, "§", ⟨2, 4⟩), (.illegal, "€", ⟨4, 7⟩),
          (.ident, "y", ⟨8, 9⟩), (.eof, "", ⟨9, 9⟩)] := by
  intro source matcher
  have hmatcher : matcher.Granted := .ofRuns _
  have hsize : source.utf8ByteSize < 0xFFFFFFFF := by decide +kernel
  obtain ⟨-, -, -, hcut, htokens, -⟩ := stream_continues hmatcher source
  refine ⟨hmatcher, hsize, htokens hsize, ?_⟩
  rw [← hcut]
  decide +kernel

end Scanner

end Ember
