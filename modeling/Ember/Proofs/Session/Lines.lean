import Ember.Command.Repl
import Ember.Proofs.Eval.Printing

/-!
# A line of a session concerns no other line

A session goes on after every line. Whatever a line does, it leaves the interpreter as a new one
would be, but for the scopes: nothing is on the call stack and nothing is left of what was printed
(`Session.Settled`). So each line is answered as a new interpreter would answer it, and a line that
is not evaluated leaves no trace at all (`Repl.step_of_isIdle`). It may as well be left out
(`Repl.answers_without`).

An input is cut into lines at its line feeds. Lines that are left out of an input leave the others
as they are (`Repl.exists_lines_without`).
-/

namespace Ember

/-! ## Leaving out -/

/-- The elements of a list, without those whose places are left out. -/
def without {α : Type} : (Nat → Bool) → List α → List α
  | _, [] => []
  | out, x :: xs =>
    let rest := without (fun i => out (i + 1)) xs
    if out 0 then rest else x :: rest

theorem mem_of_mem_without {α : Type} {out : Nat → Bool} {xs : List α} {x : α}
    (h : x ∈ without out xs) : x ∈ xs := by
  induction xs generalizing out with
  | nil => exact h
  | cons y xs ih =>
    simp only [without] at h
    split at h
    · exact List.mem_cons_of_mem y (ih h)
    · rcases List.mem_cons.mp h with rfl | h
      · exact List.mem_cons_self
      · exact List.mem_cons_of_mem y (ih h)

theorem mapM_without {α β : Type} {f : α → Option β} {xs : List α} {ys : List β}
    (h : xs.mapM f = some ys) (out : Nat → Bool) :
    (without out xs).mapM f = some (without out ys) := by
  induction xs generalizing ys out with
  | nil =>
    simp only [List.mapM_nil, Option.pure_def, Option.some.injEq] at h
    subst h
    rfl
  | cons x xs ih =>
    rw [List.mapM_cons] at h
    obtain ⟨y, hy, h⟩ := Option.bind_eq_some_iff.mp h
    obtain ⟨zs, hzs, h⟩ := Option.bind_eq_some_iff.mp h
    obtain rfl : y :: zs = ys := Option.some.inj h
    simp only [without]
    split
    · exact ih hzs _
    · simp [List.mapM_cons, hy, ih hzs]

/-! ## Between two lines -/

namespace Session

variable {s : Session} {limit : Option Nat} {p : Program}

/-- A new interpreter that goes on with the scopes of a session. -/
def renewed (options : Options) (s : Session) : Session :=
  ⟨⟨s.machine.heap, .empty options.maxDepth, .fresh⟩, s.globals⟩

/-- What is reported about the evaluation of a program. -/
def report (s : Session) (p : Program) : Transcript :=
  (s.eval p).2.1 ++ .ofOutcome false (s.eval p).1

/-- Between two lines there is nothing on the call stack and nothing left to print. -/
structure Settled (limit : Option Nat) (s : Session) : Prop where
  sound : s.machine.heap.Sound .complete
  calls : s.machine.calls = .empty limit
  printer : s.machine.printer = .fresh

theorem settled_start (options : Options) : (start options).Settled options.maxDepth :=
  ⟨(reachable_start options).sound, rfl, rfl⟩

/-- However the evaluation of a source text ends, the session is settled again. -/
theorem Settled.eval (h : s.Settled limit) (source : String) :
    (s.eval (.ofSource source)).2.2.Settled limit where
  sound := (Machine.evalWith_program (Program.missing_or_complete source) h.sound).1
  calls := (s.machine.evalWith_restores _ _ _).1.trans h.calls
  printer := by
    have hprinter := (s.machine.evalWith_restores s.machine.callBudget s.globals
      (.ofSource source)).2
    rw [h.printer] at hprinter
    exact hprinter

theorem Settled.renewed {options : Options} (h : s.Settled options.maxDepth) :
    s.renewed options = s := by
  obtain ⟨⟨heap, calls, printer⟩, globals⟩ := s
  obtain ⟨-, rfl, rfl⟩ := h
  rfl

end Session

namespace Repl

variable {s : Session} {limit : Option Nat} {options : Options} {line : String}

/-- The line is not evaluated: it is blank or the parser reports something about it. -/
def IsIdle (line : String) : Prop :=
  Text.trim line.toList = [] ∨ (Program.ofSource line).diagnostics ≠ []

/-- A line that is not evaluated leaves the session as it is. -/
theorem step_of_isIdle (h : IsIdle line) (s : Session) : (step s line).2 = s := by
  unfold step
  split
  · rfl
  next hblank =>
  have hdiagnostics : (Program.ofSource line).hasDiagnostics = true := by
    simpa [Program.hasDiagnostics] using h.resolve_left hblank
  rw [if_pos hdiagnostics]

/-- Any other line is answered with the report of its evaluation. -/
theorem step_of_not_isIdle (h : ¬IsIdle line) (s : Session) :
    step s line = (s.report (.ofSource line), (s.eval (.ofSource line)).2.2) := by
  simp only [IsIdle, not_or, not_not] at h
  unfold step
  rw [if_neg h.1]
  dsimp only
  rw [if_neg (by simp [Program.hasDiagnostics, h.2])]
  rfl

theorem settled_step (h : s.Settled limit) (line : String) : (step s line).2.Settled limit := by
  by_cases hidle : IsIdle line
  · rwa [step_of_isIdle hidle]
  · rw [step_of_not_isIdle hidle]
    exact h.eval line

/-! ## Line after line -/

/-- The session after some lines. -/
def sessionAfter (s : Session) (ls : List String) : Session :=
  ls.foldl (fun s line => (step s line).2) s

/-- What is written about each of some lines. -/
def answers : Session → List String → List Transcript
  | _, [] => []
  | s, line :: ls => (step s line).1 :: answers (step s line).2 ls

/-- Everything that a session writes when these are the answers to its lines. -/
def written (as : List Transcript) : Transcript :=
  prompt ++ as.flatMap (· ++ prompt) ++ Transcript.line ""

@[simp] theorem sessionAfter_cons (s : Session) (line : String) (ls : List String) :
    sessionAfter s (line :: ls) = sessionAfter (step s line).2 ls := rfl

theorem sessionAfter_concat (s : Session) (ls : List String) (line : String) :
    sessionAfter s (ls ++ [line]) = (step (sessionAfter s ls) line).2 := by
  rw [sessionAfter, List.foldl_append]
  rfl

theorem settled_sessionAfter (h : s.Settled limit) (ls : List String) :
    (sessionAfter s ls).Settled limit := by
  induction ls generalizing s with
  | nil => exact h
  | cons line ls ih => exact ih (settled_step h line)

theorem getElem?_answers (s : Session) (before : List String) (line : String)
    (after : List String) : (answers s (before ++ line :: after))[before.length]? =
      some (step (sessionAfter s before) line).1 := by
  induction before generalizing s with
  | nil => rfl
  | cons l before ih => simp [answers, ih]

/-- Lines that are not evaluated may be left out: the answers to the others are the same. -/
theorem answers_without {ls : List String} {out : Nat → Bool}
    (h : ∀ i line, ls[i]? = some line → out i = true → IsIdle line) (s : Session) :
    answers s (without out ls) = without out (answers s ls) := by
  induction ls generalizing s out with
  | nil => rfl
  | cons line ls ih =>
    have hrest := ih fun i l hl => h (i + 1) l hl
    by_cases hout : out 0 = true
    · have hidle := h 0 line rfl hout
      simp only [without, answers, hout, if_true, step_of_isIdle hidle]
      exact hrest s
    · simp only [without, answers, hout]
      exact congrArg (_ :: ·) (hrest _)

/-! ## The lines of an input -/

/-- The lines of an input, unless one of them is not a text. -/
def texts? (input : List UInt8) : Option (List String) :=
  (lines input).mapM fun bytes => String.fromUTF8? bytes.toByteArray

theorem loop_of_texts {bytes : List (List UInt8)} {ls : List String}
    (h : bytes.mapM (fun bytes => String.fromUTF8? bytes.toByteArray) = some ls) (s : Session) :
    loop s bytes =
      ⟨(answers s ls).flatMap (· ++ prompt) ++ Transcript.line "", .ok .success⟩ := by
  induction bytes generalizing ls s with
  | nil =>
    simp only [List.mapM_nil, Option.pure_def, Option.some.injEq] at h
    subst h
    rfl
  | cons b bytes ih =>
    rw [List.mapM_cons] at h
    obtain ⟨line, hline, h⟩ := Option.bind_eq_some_iff.mp h
    obtain ⟨ks, hks, h⟩ := Option.bind_eq_some_iff.mp h
    obtain rfl : line :: ks = ls := Option.some.inj h
    simp [loop, hline, ih hks, answers, Report.after]

theorem run_of_texts? {input : List UInt8} {ls : List String} (h : texts? input = some ls)
    (options : Options) :
    run options input = ⟨written (answers (.start options) ls), .ok .success⟩ := by
  simp [run, loop_of_texts h, Report.after, written]

/-- Bytes that are cut into these lines, each ended by a carriage return and a line feed. -/
def join (bytes : List (List UInt8)) : List UInt8 := bytes.flatMap (· ++ [13, 10])

theorem splitOn_join {bytes : List (List UInt8)} (h : ∀ b ∈ bytes, 10 ∉ b) :
    (join bytes).splitOn 10 = bytes.map (· ++ [13]) ++ [[]] := by
  induction bytes with
  | nil => rfl
  | cons b bytes ih =>
    obtain ⟨hb, hbytes⟩ := List.forall_mem_cons.mp h
    have hsplit : join (b :: bytes) = (b ++ [13]) ++ 10 :: join bytes := by simp [join]
    rw [hsplit, List.splitOn_append_cons_self_of_not_mem (by simp [hb]), ih hbytes]
    rfl

theorem lines_join {bytes : List (List UInt8)} (h : ∀ b ∈ bytes, 10 ∉ b) :
    lines (join bytes) = bytes := by
  have hne : bytes.map (· ++ [13]) ++ [[]] ≠ [] := by simp
  unfold lines
  rw [splitOn_join h]
  split
  · next heq => exact absurd heq hne
  · have hchomp : chomp ∘ (· ++ [13]) = id := by
      funext b
      simp [chomp]
    rw [List.dropLast_concat, List.map_map, hchomp]
    simp

/-- Where a list is cut, the cuts leave nothing of the separator. -/
theorem not_mem_of_mem_splitOn {a : UInt8} {xs piece : List UInt8} (h : piece ∈ xs.splitOn a) :
    a ∉ piece := by
  induction xs generalizing piece with
  | nil => simp_all [List.splitOn_nil]
  | cons x xs ih =>
    rw [List.splitOn_cons_eq_if_modifyHead] at h
    by_cases hx : (x == a) = true
    · rw [if_pos hx] at h
      rcases List.mem_cons.mp h with rfl | h
      · exact List.not_mem_nil
      · exact ih h
    · rw [if_neg hx] at h
      obtain ⟨first, others, hpieces⟩ := List.exists_cons_of_ne_nil (List.splitOn_ne_nil a xs)
      rw [hpieces, List.modifyHead_cons] at h
      rcases List.mem_cons.mp h with rfl | h
      · have hfirst : a ∉ first := ih (hpieces ▸ List.mem_cons_self)
        have hne : a ≠ x := by
          rintro rfl
          exact hx (beq_self_eq_true a)
        simp [hne, hfirst]
      · exact ih (hpieces ▸ List.mem_cons_of_mem first h)

theorem not_mem_of_mem_lines {input b : List UInt8} (h : b ∈ lines input) : 10 ∉ b := by
  have hpieces : ∀ piece ∈ input.splitOn 10, 10 ∉ piece := fun _ => not_mem_of_mem_splitOn
  have hchomp : ∀ piece : List UInt8, 10 ∉ piece → 10 ∉ chomp piece := by
    intro piece hpiece
    unfold chomp
    split
    · exact fun hmem => hpiece (List.mem_of_mem_dropLast hmem)
    · exact hpiece
  unfold lines at h
  split at h
  · cases h
  · rcases List.mem_append.mp h with h | h
    · obtain ⟨piece, hpiece, rfl⟩ := List.mem_map.mp h
      exact hchomp piece (hpieces piece (List.mem_of_mem_dropLast hpiece))
    · rw [Option.mem_toList, Option.filter_eq_some_iff] at h
      exact hpieces b (List.mem_of_getLast? h.1)

/-- Lines can be left out of an input. -/
theorem exists_lines_without (input : List UInt8) (out : Nat → Bool) :
    ∃ input', lines input' = without out (lines input) :=
  ⟨_, lines_join fun _ hb => not_mem_of_mem_lines (mem_of_mem_without hb)⟩

/--
With a limit on nested calls, and an input whose lines are texts. The session ends well. Every line
that is not blank and without diagnostics comes to an end, and the answer to it is the report of a
new interpreter that goes on with the scopes as the lines before it left them. If lines that are
blank or have diagnostics are left out of the input, the answers to the others are the same.
-/
theorem lines_isolated (limit : Nat) {input : List UInt8} {ls : List String}
    (h : texts? input = some ls) :
    let options : Options := ⟨some limit⟩
    let start := Session.start options
    run options input = ⟨written (answers start ls), .ok .success⟩ ∧
      (∀ before line after, ls = before ++ line :: after → ¬IsIdle line →
        let s := (sessionAfter start before).renewed options
        (s.eval (.ofSource line)).1 ≠ .exhausted ∧
          (answers start ls)[before.length]? = some (s.report (.ofSource line)) ∧
          sessionAfter start (before ++ [line]) = (s.eval (.ofSource line)).2.2) ∧
      ∀ out : Nat → Bool, (∀ i line, ls[i]? = some line → out i = true → IsIdle line) →
        (∃ input', lines input' = without out (lines input)) ∧
          ∀ input', lines input' = without out (lines input) →
            run options input' = ⟨written (without out (answers start ls)), .ok .success⟩ := by
  intro options start
  refine ⟨run_of_texts? h options, ?_, ?_⟩
  · rintro before line after rfl hidle
    have hsettled := settled_sessionAfter (Session.settled_start options) before
    -- Between lines the session is as a new interpreter would have it.
    rw [hsettled.renewed]
    have hlimit : (sessionAfter start before).machine.calls.limit = some limit := by
      rw [hsettled.calls]
      rfl
    refine ⟨Machine.eval_ne_exhausted hlimit _ _, ?_, ?_⟩
    · rw [getElem?_answers, step_of_not_isIdle hidle]
    · rw [sessionAfter_concat, step_of_not_isIdle hidle]
  · intro out hout
    refine ⟨exists_lines_without input out, fun input' hinput => ?_⟩
    have htexts : texts? input' = some (without out ls) := by
      unfold texts?
      rw [hinput]
      exact mapM_without h out
    rw [run_of_texts? htexts, answers_without hout]

/-- Of the lines `x`, `?` and `1` the first one fails and the second one is left out. -/
theorem lines_isolated_garbled :
    let input : List UInt8 := [120, 10, 63, 10, 49, 10]
    let failed : Transcript := [(.messages, "error: identifier not found: x\n")]
    let garbled : Transcript := [(.messages, "1:1: [E0002] illegal token \"?\"\n")]
    let echoed : Transcript := [(.output, "1\n")]
    texts? input = some ["x", "?", "1"] ∧
      run ⟨some 3⟩ input = ⟨written [failed, garbled, echoed], .ok .success⟩ ∧
      ∃ input', lines input' = [[120], [49]] ∧
        run ⟨some 3⟩ input' = ⟨written [failed, echoed], .ok .success⟩ := by
  intro input failed garbled echoed
  have htexts : texts? input = some ["x", "?", "1"] := by decide +kernel
  have hidle : IsIdle "?" := .inr (by decide +kernel)
  have hanswers : answers (.start ⟨some 3⟩) ["x", "?", "1"] = [failed, garbled, echoed] := by
    decide +kernel
  obtain ⟨hrun, -, hwithout⟩ := lines_isolated 3 htexts
  obtain ⟨⟨input', hinput⟩, hrun'⟩ := hwithout (· == 1) (by
    rintro (_ | _ | _ | i) line hline hout
    · cases hout
    · cases hline
      exact hidle
    · cases hout
    · cases hout)
  rw [hanswers] at hrun
  have hlines : lines input' = [[120], [49]] := hinput.trans (by decide +kernel)
  refine ⟨htexts, hrun, input', hlines, ?_⟩
  have hkept := hrun' input' hinput
  rwa [hanswers] at hkept

end Repl

end Ember
