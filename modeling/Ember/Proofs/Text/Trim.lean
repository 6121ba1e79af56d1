import Ember.Text.Blank
import Mathlib.Data.List.TakeWhile

/-!
# Trimming

Trimming takes blank characters away from both ends of a text and nothing else (`exists_eq_trim`).
So it leaves nothing of a blank text (`trim_eq_nil_iff`), and of a text without blank characters it
leaves everything, whatever blank characters are put around it (`trim_append`).
-/

namespace Ember.Text

variable {cs core before after : List Char}

/-- Trimming takes away blank characters only. -/
theorem exists_eq_trim (cs : List Char) : ∃ before after, cs = before ++ trim cs ++ after ∧
    (∀ c ∈ before, isBlank c = true) ∧ ∀ c ∈ after, isBlank c = true := by
  let rest := cs.dropWhile isBlank
  refine ⟨cs.takeWhile isBlank, (rest.reverse.takeWhile isBlank).reverse, ?_,
    fun c hc => List.mem_takeWhile_imp hc,
    fun c hc => List.mem_takeWhile_imp (List.mem_reverse.mp hc)⟩
  have hrest : trim cs ++ (rest.reverse.takeWhile isBlank).reverse = rest := by
    rw [trim, ← List.reverse_append, List.takeWhile_append_dropWhile, List.reverse_reverse]
  rw [List.append_assoc, hrest, List.takeWhile_append_dropWhile]

/-- Trimming leaves nothing exactly of a text that is blank throughout. -/
theorem trim_eq_nil_iff (cs : List Char) : trim cs = [] ↔ ∀ c ∈ cs, isBlank c = true := by
  constructor
  · intro h
    obtain ⟨before, after, heq, hbefore, hafter⟩ := exists_eq_trim cs
    rw [heq, h, List.append_nil, List.forall_mem_append]
    exact ⟨hbefore, hafter⟩
  · intro h
    rw [trim, List.dropWhile_eq_nil_iff.mpr h]
    rfl

theorem dropWhile_isBlank_of_forall (h : ∀ c ∈ core, isBlank c = false) :
    core.dropWhile isBlank = core := by
  rw [List.dropWhile_eq_self_iff]
  intro hpos
  simp [h _ (List.getElem_mem hpos)]

/-- Blank characters around a text that has none are what trimming takes away. -/
theorem trim_append (hbefore : ∀ c ∈ before, isBlank c = true)
    (hafter : ∀ c ∈ after, isBlank c = true) (hcore : ∀ c ∈ core, isBlank c = false) :
    trim (before ++ core ++ after) = core := by
  cases core with
  | nil =>
    rw [trim_eq_nil_iff, List.append_nil]
    exact fun c hc => (List.mem_append.mp hc).elim (hbefore c) (hafter c)
  | cons c cs =>
    have hhead : ¬isBlank c = true := by simp [hcore c List.mem_cons_self]
    have hreverse : ∀ d ∈ after.reverse, isBlank d = true := fun d hd =>
      hafter d (List.mem_reverse.mp hd)
    rw [trim, List.append_assoc, List.dropWhile_append_of_pos hbefore, List.cons_append,
      List.dropWhile_cons_of_neg hhead, ← List.cons_append, List.reverse_append,
      List.dropWhile_append_of_pos hreverse,
      dropWhile_isBlank_of_forall fun d hd => hcore d (List.mem_reverse.mp hd),
      List.reverse_reverse]

end Ember.Text
