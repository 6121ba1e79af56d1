import Ember.Proofs.Recovery.Program

/-!
# Placeholders and diagnostics

The statements of a program that failed and the diagnostics of the program are the same thing seen
twice: one placeholder for every diagnostic, at the token that the diagnostic found
(`filterMap_missing?_readAll`). Every statement that is no placeholder was read from tokens of the
input and is a phrase of the grammar within the limit on nesting (`phrase_of_mem_readAll`).

No token is reported twice (`found_sublist_readAll`). Recovery may leave the parser at the token
that was reported, but only at a `let` or `return`, and then the next statement takes that keyword
before it can fail. So the induction over the statements carries that a keyword at the front is not
among the tokens reported from there.
-/

namespace Ember

open Rule Grammar Phrase

/-- The token at which a statement could not be parsed, if the statement stands for that. -/
def Stmt.missing? : Stmt → Option Token
  | .missing token => some token
  | _ => none

/-- A phrase is no placeholder. -/
theorem missing?_eq_none_of_phrase {ts us : List Token} {s : Stmt} {n : Nat}
    (h : Statement ts s n us) : s.missing? = none := by
  cases h <;> rfl

section Loop

variable {i j : Input} {d : Diagnostic} {s : Stmt}

/-! ## One statement -/

/-- A statement that was read is a phrase of the tokens it took. -/
theorem of_statement_ok (hi : i.Ended) (h : statement (expression maxNesting) i = .ok s j) :
    ∃ taken n, i = j.prepend taken ∧ taken ≠ [] ∧ n ≤ maxNesting ∧
      Statement i.pending s n j.pending := by
  obtain ⟨-, n, hn, hphrase⟩ := sound_statement (sound_expression maxNesting) hi s j h
  have htaken : ∃ taken, i = j.prepend taken := by
    cases settles_statement (local_expression maxNesting) hi with
    | before hlocal =>
      obtain ⟨taken, hij, -⟩ := hlocal.of_ok hi h
      exact ⟨taken, hij⟩
    | past x taken semicolon k hij hnest hs run =>
      have hrun := run k (hi.of_eq_prepend hij)
      rw [← hij, h] at hrun
      cases hrun
      exact ⟨taken ++ [semicolon], hij⟩
  obtain ⟨taken, hij⟩ := htaken
  refine ⟨taken, n, hij, ?_, hn, hphrase⟩
  rintro rfl
  have hlt := hphrase.length_lt
  rw [hij] at hlt
  exact Nat.lt_irrefl _ hlt

/-- A statement that failed at a `let` or `return` took the keyword. -/
theorem ne_nil_of_startsStatement (hi : i.Ended) (hs : Recovery.startsStatement i.head = true)
    {taken : List Token} (hij : i = j.prepend taken)
    (h : statement (expression maxNesting) i = .error d j) : taken ≠ [] := by
  rintro rfl
  have hlt := length_lt_of_startsStatement (local_expression maxNesting) hi hs h
  rw [hij] at hlt
  exact Nat.lt_irrefl _ hlt

/-! ## All of them -/

/--
What holds where nothing is left to read, and is kept by every statement that is read and by every
one that fails, holds of the parser's loop.
-/
theorem readAll_induction {P : Input → List Stmt × List Diagnostic → Prop}
    (nil : ∀ i, i.Ended → i.pending = [] → P i ([], []))
    (ok : ∀ i s j r, i.Ended → statement (expression maxNesting) i = .ok s j → P j r →
      P i (s :: r.1, r.2))
    (error : ∀ i d j r, i.Ended → i.pending ≠ [] →
      statement (expression maxNesting) i = .error d j → P (Recovery.resume i j) r →
        P i (.missing d.found :: r.1, d :: r.2))
    (hi : i.Ended) : P i (readAll i) := by
  -- Statement and recovery both take a token, so less is left after each round.
  induction hn : i.pending.length using Nat.strongRecOn generalizing i with
  | ind n ih =>
    by_cases hne : i.pending = []
    · have hread : readAll i = ([], []) := by
        unfold readAll
        rw [hne]
        rfl
      rw [hread]
      exact nil i hi hne
    cases h : statement (expression maxNesting) i with
    | ok s j =>
      obtain ⟨hj, hlt⟩ := takes_statement maxNesting hi s j h
      rw [readAll_of_ok hi hne h]
      exact ok i s j _ hi h (ih _ (by omega) hj rfl)
    | error d j =>
      obtain ⟨c, _, hij, -⟩ := of_statement_error hi h
      have hlt := length_resume_lt hi hne h
      have hresume : (Recovery.resume i j).Ended :=
        Recovery.ended_resume (hi.of_eq_prepend hij)
      rw [readAll_of_error hi hne h]
      exact error i d j _ hi hne h (ih _ (by omega) hresume rfl)

/-- There is one placeholder for every diagnostic, at the token that the diagnostic found. -/
theorem filterMap_missing?_readAll (hi : i.Ended) :
    (readAll i).1.filterMap Stmt.missing? = (readAll i).2.map Diagnostic.found := by
  refine readAll_induction (P := fun _ r => r.1.filterMap Stmt.missing? = r.2.map Diagnostic.found)
    ?_ ?_ ?_ hi
  · intro i _ _
    rfl
  · intro i s j r hi h hr
    obtain ⟨_, _, -, -, -, hphrase⟩ := of_statement_ok hi h
    rw [List.filterMap_cons_none (missing?_eq_none_of_phrase hphrase), hr]
  · intro i d j r _ _ _ hr
    rw [List.filterMap_cons_some (show (Stmt.missing d.found).missing? = some d.found from rfl), hr,
      List.map_cons]

/-- Without a diagnostic no statement is a placeholder. -/
theorem missing?_eq_none_of_mem {l : TokenList} (h : (Program.ofTokens l).diagnostics = [])
    {s : Stmt} (hs : s ∈ (Program.ofTokens l).statements) : s.missing? = none := by
  have hfound := filterMap_missing?_readAll (Input.ended_ofList l)
  rw [show (readAll (Input.ofList l)).2 = [] from h] at hfound
  exact List.filterMap_eq_nil_iff.mp hfound s hs

/-- Every statement is a placeholder or a phrase of the input, within the limit on nesting. -/
theorem phrase_of_mem_readAll (hi : i.Ended) {s : Stmt} (hs : s ∈ (readAll i).1) :
    s.missing? ≠ none ∨
      ∃ ts n us, ts <:+ i.pending ∧ n ≤ maxNesting ∧ Statement ts s n us := by
  refine readAll_induction (P := fun i r => ∀ s ∈ r.1, s.missing? ≠ none ∨
    ∃ ts n us, ts <:+ i.pending ∧ n ≤ maxNesting ∧ Statement ts s n us) ?_ ?_ ?_ hi s hs
  · intro i _ _
    exact nofun
  · intro i s j r hi h hr t ht
    obtain ⟨taken, n, hij, -, hn, hphrase⟩ := of_statement_ok hi h
    rcases List.mem_cons.mp ht with rfl | ht
    · exact .inr ⟨i.pending, n, j.pending, List.suffix_rfl, hn, hphrase⟩
    · refine (hr t ht).imp_right ?_
      rintro ⟨ts, n, us, hsuffix, hphrase⟩
      have hj : j.pending <:+ i.pending := ⟨taken, by rw [hij, Input.prepend_pending]⟩
      exact ⟨ts, n, us, hsuffix.trans hj, hphrase⟩
  · intro i d j r hi _ h hr t ht
    rcases List.mem_cons.mp ht with rfl | ht
    · exact .inl nofun
    · refine (hr t ht).imp_right ?_
      rintro ⟨ts, n, us, hsuffix, hphrase⟩
      obtain ⟨c, _, hij, -⟩ := of_statement_error hi h
      have hj : j.pending <:+ i.pending := ⟨c, by rw [hij, Input.prepend_pending]⟩
      rw [Recovery.resume_eq (c := c) (by rw [hij, Input.prepend_pending])] at hsuffix
      exact ⟨ts, n, us, (hsuffix.trans (Recovery.skip_suffix _ _)).trans hj, hphrase⟩

end Loop

/-! ## The tokens that are reported -/

/--
The tokens that can be reported where `z` is the end of the input: all that is left to read, except
for a keyword that the next statement will take.
-/
def reportable (z : Token) : List Token → List Token
  | [] => []
  | t :: ts => if Recovery.startsStatement t then ts ++ [z] else t :: ts ++ [z]

theorem reportable_sublist (z : Token) (ts : List Token) :
    (reportable z ts).Sublist (ts ++ [z]) := by
  cases ts with
  | nil => exact List.nil_sublist _
  | cons t us =>
    rw [reportable]
    split
    · exact List.sublist_cons_self t _
    · exact List.Sublist.refl _

/-- Behind the first token, nothing is left out. -/
theorem sublist_reportable_append {ts : List Token} (hne : ts ≠ []) (us : List Token) (z : Token) :
    (us ++ [z]).Sublist (reportable z (ts ++ us)) := by
  obtain ⟨t, ts, rfl⟩ := List.exists_cons_of_ne_nil hne
  have hrest : (us ++ [z]).Sublist (ts ++ us ++ [z]) := by
    rw [List.append_assoc]
    exact List.sublist_append_right ts _
  rw [List.cons_append, reportable]
  split
  · exact hrest
  · exact hrest.cons t

/-- Where recovery stops, the token at which it began is passed or cannot be reported again. -/
theorem reportable_skip_sublist (depth : Int) (t : Token) (ts : List Token) (z : Token) :
    (reportable z (Recovery.skip depth (t :: ts))).Sublist (ts ++ [z]) := by
  unfold Recovery.skip
  split
  · exact reportable_sublist z ts
  split
  · next hs => rw [reportable, if_pos hs.2]
  · exact (reportable_sublist z _).trans ((Recovery.skip_suffix _ ts).sublist.append_right _)

/-- The diagnostics find tokens of the input, each later than the one before. -/
theorem found_sublist_readAll {i : Input} (hi : i.Ended) :
    ((readAll i).2.map Diagnostic.found).Sublist (reportable i.ending i.pending) := by
  refine readAll_induction
    (P := fun i r => (r.2.map Diagnostic.found).Sublist (reportable i.ending i.pending))
    ?_ ?_ ?_ hi
  · intro i _ _
    exact List.nil_sublist _
  · intro i s j r hi h hr
    obtain ⟨taken, -, rfl, hne, -⟩ := of_statement_ok hi h
    exact (hr.trans (reportable_sublist _ _)).trans
      (sublist_reportable_append hne j.pending j.ending)
  · intro i d j r hi hne h hr
    obtain ⟨taken, _, hij, -, hfound, -⟩ := of_statement_error hi h
    have hpending : i.pending = taken ++ j.pending := by rw [hij, Input.prepend_pending]
    rw [Recovery.resume_eq hpending] at hr
    rw [List.map_cons, hfound]
    have htaken := fun hs => ne_nil_of_startsStatement (d := d) hi hs hij h
    subst hij
    obtain ⟨pending, ending⟩ := j
    cases pending with
    | nil =>
      -- The statement failed at the end, and nothing is read behind it.
      have hnone : r.2.map Diagnostic.found = [] := List.sublist_nil.mp hr
      have hne : taken ≠ [] := by
        rintro rfl
        exact hne rfl
      rw [hnone]
      exact sublist_reportable_append hne [] ending
    | cons t ts =>
      have hfirst : (t :: r.2.map Diagnostic.found).Sublist (t :: ts ++ [ending]) :=
        (hr.trans (reportable_skip_sublist _ t ts ending)).cons_cons t
      cases taken with
      | cons u taken =>
        exact hfirst.trans (sublist_reportable_append (List.cons_ne_nil u taken) (t :: ts) ending)
      | nil =>
        -- Nothing was taken, so the token is no keyword that begins a statement.
        have hstarts : ¬Recovery.startsStatement t = true := fun hs => htaken hs rfl
        show (t :: r.2.map Diagnostic.found).Sublist (reportable ending (t :: ts))
        rwa [reportable, if_neg hstarts]

end Ember
