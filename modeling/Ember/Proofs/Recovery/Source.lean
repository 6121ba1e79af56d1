import Ember.Proofs.Canonical.Source
import Ember.Proofs.Tree.Shape

/-!
# What a source text is parsed to

The program of a source text has one placeholder for every diagnostic, and nothing else is missing
in it: a statement is either the placeholder for one that failed or complete to its leaves
(`Program.placeholders_ofSource`). No rule of the grammar leaves a placeholder inside a tree, and no
name of a source text is empty.
-/

namespace Ember

namespace Program

/-- A statement of a source text that is no placeholder is complete. -/
theorem complete_of_mem_ofSource {source : String} {s : Stmt}
    (hs : s ∈ (ofSource source).statements) (hmissing : s.missing? = none) : s.Complete := by
  rcases writable_of_mem_ofSource hs with hne | hw
  · exact absurd hmissing hne
  · exact hw.complete

/-- The tokens that are reported are tokens of the source text, in the order they have there. -/
theorem found_sublist_ofSource (source : String) :
    ((ofSource source).diagnostics.map Diagnostic.found).Sublist
      (TokenList.ofSource source).tokens := by
  obtain ⟨body, ending, hsource, -, hending, hbody⟩ := TokenList.exists_ofSource source
  have hi : (⟨body, ending⟩ : Input).Ended := hending
  unfold ofSource
  rw [hsource, ofTokens_eq, Input.ofList_concat hbody hending]
  exact (found_sublist_readAll hi).trans (reportable_sublist ending body)

/--
The placeholders among the statements of a source text stand at the tokens that the diagnostics
found, one for one and in order. These are tokens of the text, each behind the one before it. Every
other statement is complete.
-/
theorem placeholders_ofSource (source : String) :
    (ofSource source).statements.filterMap Stmt.missing?
        = (ofSource source).diagnostics.map Diagnostic.found ∧
      ((ofSource source).diagnostics.map Diagnostic.found).Sublist
        (TokenList.ofSource source).tokens ∧
      ∀ s ∈ (ofSource source).statements, s.missing? = none → s.Complete :=
  ⟨filterMap_missing?_readAll (Input.ended_ofList (.ofSource source)),
    found_sublist_ofSource source, fun _ => complete_of_mem_ofSource⟩

end Program

end Ember
