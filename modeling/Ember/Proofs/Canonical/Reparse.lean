import Ember.Proofs.Canonical.Program
import Ember.Proofs.Canonical.Source
import Ember.Proofs.Nesting.Program

/-!
# Parsing the canonical text of a parsed program

A source text without a diagnostic has a program that can be written, and the text of that program
is parsed to the same statements again, unless it opens too many levels of nesting
(`Program.ofSource_render_ofSource`). The text may well open more of them than the source did: the
printer puts parentheses around every operator, each of which is a level of its own, and writes a
callee that was in parentheses without them, so that its calls make one chain. So a source within
the limit can have a text beyond it (`Program.ofSource_render_signed`).
-/

namespace Ember

open Phrase

/-- The text of a program that can be written is parsed to its statements, or nests too deeply. -/
theorem Program.ofSource_render_of_writable {p : Program} (hp : ∀ s ∈ p.statements, s.Writable) :
    ((∀ s ∈ p.statements, s.levels ≤ maxNesting) → ∃ ss, ofSource p.render = ⟨ss, []⟩ ∧
      ss.map Stmt.bare = p.statements.map Stmt.bare) ∧
    ((∃ s ∈ p.statements, maxNesting < s.levels) → ∃ d ∈ (ofSource p.render).diagnostics,
      d.reason = .nestedTooDeeply maxNesting) := by
  obtain ⟨body, ending, hsource, hpieces, hending, hbody⟩ := TokenList.exists_ofSource p.render
  rw [toList_renderProgram, scan_renderProgram p.statements hp] at hpieces
  have hspells : Spells body (bodyPieces p.statements) [] := by
    rw [← hpieces]
    exact .of_map body
  obtain ⟨ss, hbare, hss⟩ := statements_of_pieces p.statements hp body hspells
  obtain ⟨hwithin, hbeyond⟩ := ofTokens_of_statements hbody hending hss
  unfold ofSource
  rw [hsource]
  constructor
  · intro hlevels
    exact ⟨ss, hwithin (bodyDepth_le_iff.mpr hlevels), hbare⟩
  · rintro ⟨s, hs, hlevels⟩
    refine hbeyond (Nat.lt_of_not_le ?_)
    intro hle
    exact Nat.not_le_of_lt hlevels (bodyDepth_le_iff.mp hle s hs)

/-- Every statement of a source text without a diagnostic can be written. -/
theorem Program.writable_of_diagnostics_eq_nil {source : String}
    (h : (ofSource source).diagnostics = []) : ∀ s ∈ (ofSource source).statements, s.Writable :=
  fun _ hs => (writable_of_mem_ofSource hs).resolve_left
    (not_not_intro (missing?_eq_none_of_mem h hs))

/--
The canonical text of a program that was accepted is accepted exactly if none of the statements
opens more levels as it is written than may be open at once. It then has the same statements but for
their tokens; otherwise the parser reports that it nests too deeply.
-/
theorem Program.ofSource_render_ofSource {source : String}
    (h : (ofSource source).diagnostics = []) :
    ((ofSource (ofSource source).render).diagnostics = [] ↔
      ∀ s ∈ (ofSource source).statements, s.levels ≤ maxNesting) ∧
    ((ofSource (ofSource source).render).diagnostics = [] →
      (ofSource (ofSource source).render).statements.map Stmt.bare
        = (ofSource source).statements.map Stmt.bare) ∧
    ((ofSource (ofSource source).render).diagnostics ≠ [] →
      ∃ d ∈ (ofSource (ofSource source).render).diagnostics,
        d.reason = .nestedTooDeeply maxNesting) := by
  obtain ⟨hwithin, hbeyond⟩ := ofSource_render_of_writable (writable_of_diagnostics_eq_nil h)
  by_cases hlevels : ∀ s ∈ (ofSource source).statements, s.levels ≤ maxNesting
  · obtain ⟨ss, hparse, hbare⟩ := hwithin hlevels
    rw [hparse]
    exact ⟨⟨fun _ => hlevels, fun _ => rfl⟩, fun _ => hbare, fun hne => absurd rfl hne⟩
  · obtain ⟨d, hd, hreason⟩ : ∃ d ∈ (ofSource (ofSource source).render).diagnostics,
        d.reason = .nestedTooDeeply maxNesting := by
      refine hbeyond ?_
      simpa using hlevels
    have hne := List.ne_nil_of_mem hd
    exact ⟨⟨fun hnil => absurd hnil hne, fun hle => absurd hle hlevels⟩,
      fun hnil => absurd hnil hne, fun _ => ⟨d, hd, hreason⟩⟩

/-! ## Signs -/

/-- In parentheses, every sign opens two levels. -/
theorem Signed.depth {k : Nat} {e : Expr} (h : Signed k e) : e.depth = 2 * k := by
  induction h with
  | one => rfl
  | minus _ ih =>
    rw [Expr.depth, ih]
    omega

/-- The text of `k` minus signs and a one. -/
def signed (k : Nat) : String := String.ofList (List.replicate k '-' ++ ['1'])

/-- The signs open a level each in the source, and two each in the canonical text. -/
theorem Program.exists_ofSource_signed {k : Nat} (hk : k + 1 ≤ maxNesting) :
    ∃ s, ofSource (signed k) = ⟨[s], []⟩ ∧ s.levels = 2 * k + 1 := by
  obtain ⟨body, ending, hsource, hpieces, hending, hbody⟩ := TokenList.exists_ofSource (signed k)
  have hscan : scan (signed k).toList = signedPieces k := by
    unfold signed
    rw [String.toList_ofList, scan_signed .nil, scan_nil, List.append_nil]
  have hspells : Spells body (signedPieces k) [] := by
    rw [← hscan, ← hpieces]
    exact .of_map body
  obtain ⟨e, hsigned, he⟩ := operation_of_signedPieces k body [] hspells
  have hstatements : Statements body [.ofExpr e] (max (k + 1) 0) :=
    .cons (.bare (nested_of_operation he) rfl) .nil
  refine ⟨.ofExpr e, ?_, ?_⟩
  · unfold ofSource
    rw [hsource]
    exact (ofTokens_of_statements hbody hending hstatements).1 (by omega)
  · show e.depth + 1 = 2 * k + 1
    rw [hsigned.depth]

/-- The canonical text of `-1` is `(-1);`, which is within the limit. -/
theorem Program.ofSource_render_signed_one :
    ∃ s, ofSource (signed 1) = ⟨[s], []⟩ ∧ s.levels = 3 ∧
      (ofSource (ofSource (signed 1)).render).diagnostics = [] := by
  obtain ⟨s, hparse, hlevels⟩ := exists_ofSource_signed (k := 1) (by decide)
  have h : (ofSource (signed 1)).diagnostics = [] := by rw [hparse]
  refine ⟨s, hparse, hlevels, (ofSource_render_ofSource h).1.mpr ?_⟩
  rw [hparse]
  refine List.forall_mem_singleton.mpr ?_
  rw [hlevels]
  decide

/-- 128 minus signs and a one are accepted, and their canonical text nests too deeply. -/
theorem Program.ofSource_render_signed :
    (ofSource (signed 128)).diagnostics = [] ∧
      ∃ d ∈ (ofSource (ofSource (signed 128)).render).diagnostics,
        d.reason = .nestedTooDeeply maxNesting := by
  obtain ⟨s, hparse, hlevels⟩ := exists_ofSource_signed (k := 128) (by decide)
  have h : (ofSource (signed 128)).diagnostics = [] := by rw [hparse]
  refine ⟨h, (ofSource_render_of_writable (writable_of_diagnostics_eq_nil h)).2 ⟨s, ?_, ?_⟩⟩
  · rw [hparse]
    exact List.mem_singleton_self s
  · rw [hlevels]
    decide

end Ember
