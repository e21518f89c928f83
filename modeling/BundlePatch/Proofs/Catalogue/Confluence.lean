import BundlePatch.Proofs.Catalogue.Phrase
import BundlePatch.Proofs.Rewriting.Confluence

/-!
# The order of the rules

The candidates of the rules do not overlap (`rules_orthogonal`), so the text in which
nothing is left to patch does not depend on which rules are tried in which order, nor on
how they are divided between passes (`rules_confluent`).

A single pass does depend on the order: removing a guard may join two halves of a
candidate that the pass has already looked for.
-/

namespace BundlePatch.Catalogue

open Pattern

/-! ## Candidates -/

theorem outline_of_mem_rules {r : Rule Char} (h : r ∈ rules) : ∃ p ∈ outlines, spelled p = r := by
  rw [← map_spelled_outlines] at h
  exact List.mem_map.1 h

theorem outline_candidates :
    ∀ p ∈ outlines, ∀ ms ∈ p.candidates, ms ≠ [] ∧ ms.Nodup := by
  decide

/-- No phrase stands in two candidates. -/
theorem outline_candidates_disjoint :
    ∀ p ∈ outlines, ∀ p' ∈ outlines, ∀ ms ∈ p.candidates, ∀ ms' ∈ p'.candidates,
      (p = p' ∧ ms = ms') ∨ ∀ m ∈ ms, m ∉ ms' := by
  decide

/-- Every candidate is spelled with phrases. -/
theorem candidate_spelled {r : Rule Char} (hr : r ∈ rules) {k : Text} (hk : k ∈ r.candidates) :
    ∃ p ∈ outlines, ∃ ms ∈ p.candidates, spelled p = r ∧ spell ms = k := by
  obtain ⟨p, hp, rfl⟩ := outline_of_mem_rules hr
  obtain ⟨ms, hms, rfl⟩ := List.mem_map.1 hk
  exact ⟨p, hp, ms, hms, rfl, rfl⟩

theorem sixteen_le_length_candidate {r : Rule Char} (hr : r ∈ rules) {k : Text}
    (hk : k ∈ r.candidates) : 16 ≤ k.length := by
  obtain ⟨p, hp, ms, hms, -, rfl⟩ := candidate_spelled hr hk
  exact sixteen_le_length_spell (outline_candidates p hp ms hms).1

/-- Nothing is patched in a short text. -/
theorem not_occurs_of_length_lt {s : Text} (h : s.length < 16) : ∀ r ∈ rules, ¬ r.Occurs s := by
  rintro r hr ⟨k, hk, hs⟩
  have h16 : 16 ≤ k.length := sixteen_le_length_candidate hr hk
  have hle : k.length ≤ s.length := hs.length_le
  omega

/-! ## Confluence -/

/-- Two candidates are the same one, or they keep apart. -/
theorem candidate_eq_or_apart {r r' : Rule Char} (hr : r ∈ rules) (hr' : r' ∈ rules) {k k' : Text}
    (hk : k ∈ r.candidates) (hk' : k' ∈ r'.candidates) :
    (r = r' ∧ k = k' ∧ Clear k k) ∨ Apart k k' := by
  obtain ⟨p, hp, ms, hms, rfl, rfl⟩ := candidate_spelled hr hk
  obtain ⟨p', hp', ms', hms', rfl, rfl⟩ := candidate_spelled hr' hk'
  obtain ⟨hne, hnodup⟩ := outline_candidates p hp ms hms
  obtain ⟨hne', -⟩ := outline_candidates p' hp' ms' hms'
  rcases outline_candidates_disjoint p hp p' hp' ms hms ms' hms' with ⟨rfl, rfl⟩ | hd
  · exact .inl ⟨rfl, rfl, clear_spell hnodup hne⟩
  · exact .inr (apart_spell hd hne hne')

theorem rules_orthogonal : Orthogonal rules where
  clear := by
    intro r hr r' hr' k hk k' hk'
    rcases candidate_eq_or_apart hr hr' hk hk' with ⟨-, rfl, h⟩ | h
    · exact h
    · exact h.clear
  alike := by
    intro r hr r' hr' k hk k' hk' ha
    rcases candidate_eq_or_apart hr hr' hk hk' with ⟨rfl, rfl, -⟩ | h
    · exact ⟨rfl, rfl⟩
    · have hlen : 16 ≤ k'.length := sixteen_le_length_candidate hr' hk'
      have hne : k' ≠ [] := List.length_pos_iff.1 (by omega)
      exact absurd ha (h.not_agree hne)

/-- Two series of passes over one text that leave nothing to patch leave the same text. -/
theorem rules_confluent {c : Text} {calls calls' : List (List (Rule Char))}
    (h : ∀ rs ∈ calls, rs ⊆ rules) (h' : ∀ rs ∈ calls', rs ⊆ rules)
    (hf : ∀ r ∈ rules, ¬ r.Occurs (Pass.through calls c))
    (hf' : ∀ r ∈ rules, ¬ r.Occurs (Pass.through calls' c)) :
    Pass.through calls c = Pass.through calls' c :=
  rules_orthogonal.final_unique (Pass.edits_through h c) (Pass.edits_through h' c) hf hf'

/-- A guard inside a guard: two passes of one rule do what one pass does that lists it twice. -/
theorem rules_confluent_nested_guard :
    Pass.through [[macEditorGuard], [macEditorGuard]]
        ("if(".toList ++ macGuard ++ macGuard.drop 3) =
      Pass.through [[unguardEditorList, macEditorGuard, macEditorGuard]]
        ("if(".toList ++ macGuard ++ macGuard.drop 3) := by
  have e : Pass.through [[macEditorGuard], [macEditorGuard]]
      ("if(".toList ++ macGuard ++ macGuard.drop 3) = [] := by decide +kernel
  have e' : Pass.through [[unguardEditorList, macEditorGuard, macEditorGuard]]
      ("if(".toList ++ macGuard ++ macGuard.drop 3) = [] := by decide +kernel
  refine rules_confluent (by simp [rules]) (by simp [rules]) ?_ ?_
  · rw [e]
    exact not_occurs_of_length_lt (by decide)
  · rw [e']
    exact not_occurs_of_length_lt (by decide)

end BundlePatch.Catalogue
