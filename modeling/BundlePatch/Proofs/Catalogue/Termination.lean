import BundlePatch.Proofs.Catalogue.Confluence
import BundlePatch.Proofs.Pattern.Cover
import BundlePatch.Proofs.Rewriting.Ending

/-!
# Repeated patching ends

Three of the rules make the text longer, so its length is no measure. What they insert is
never looked for again: the new lookup and the new detectors are `blocks` that keep apart
from all candidates. Each edit therefore lowers the number of code points outside of the
blocks by 16 or more (`uncovered_edit`), the least length of a phrase, and a pass that leaves
the text as it was has reported nothing (`run_content_eq_iff`).
-/

namespace BundlePatch.Catalogue

open Pattern

/-- The phrases that the rules insert and never look for. -/
def settled : List Phrase := [.newLookup, .newVscode, .newInsiders]

/-- The new lookup and the new detectors. -/
def blocks : Blocks Char where
  patterns := settled.map Phrase.text
  ne_nil := by
    intro x hx
    obtain ⟨m, -, rfl⟩ := List.mem_map.1 hx
    exact m.text_ne_nil
  clear := by
    intro x hx y hy
    obtain ⟨m, -, rfl⟩ := List.mem_map.1 hx
    obtain ⟨m', -, rfl⟩ := List.mem_map.1 hy
    by_cases e : m = m'
    · exact e ▸ m.clear
    · exact (Phrase.apart e).clear
  alike := by
    intro x hx y hy h
    obtain ⟨m, -, rfl⟩ := List.mem_map.1 hx
    obtain ⟨m', -, rfl⟩ := List.mem_map.1 hy
    by_contra e
    exact (Phrase.apart fun hm => e (congrArg Phrase.text hm)).not_agree m'.text_ne_nil h

theorem outline_candidates_unsettled :
    ∀ p ∈ outlines, ∀ ms ∈ p.candidates, ∀ m ∈ settled, m ∉ ms := by
  decide

/-- A rule inserts a block, or it only takes the last phrase of its candidate away. -/
theorem outline_replacement :
    ∀ p ∈ outlines, (∃ m ∈ settled, p.replacement = [m]) ∨
      ∀ ms ∈ p.candidates, ∃ m ∈ Phrase.all, ms = p.replacement ++ [m] := by
  decide

theorem uncovered_around_candidate {p : Rule Phrase} (hp : p ∈ outlines) {ms : List Phrase}
    (hms : ms ∈ p.candidates) (b a : Text) : uncovered blocks (b ++ spell ms ++ a) =
      uncovered blocks b + (spell ms).length + uncovered blocks a := by
  have hne : ms ≠ [] := (outline_candidates p hp ms hms).1
  have hlen : 16 ≤ (spell ms).length := sixteen_le_length_spell hne
  apply uncovered_around_of_apart
  · exact List.length_pos_iff.1 (by omega)
  · intro x hx
    obtain ⟨m, hm, rfl⟩ := List.mem_map.1 hx
    exact Phrase.apart_spell (outline_candidates_unsettled p hp ms hms m hm) hne

theorem uncovered_edit {r : Rule Char} (hr : r ∈ rules) {s t : Text} (h : r.Edit s t) :
    uncovered blocks t + 16 ≤ uncovered blocks s := by
  obtain ⟨b, a, hk⟩ := h
  obtain ⟨p, hp, ms, hms, rfl, rfl⟩ := candidate_spelled hr hk
  rw [uncovered_around_candidate hp hms]
  show uncovered blocks (b ++ spell p.replacement ++ a) + 16 ≤ _
  rcases outline_replacement p hp with ⟨m, hm, e⟩ | hcut
  · -- all of the candidate goes, and what comes instead does not count
    have hlen : 16 ≤ (spell ms).length :=
      sixteen_le_length_spell (outline_candidates p hp ms hms).1
    have hx : m.text ∈ blocks.patterns := List.mem_map_of_mem hm
    rw [e, spell_singleton, uncovered_around_self hx]
    omega
  · -- the last phrase goes
    obtain ⟨m, -, rfl⟩ := hcut ms hms
    have hm : 16 ≤ m.text.length := m.sixteen_le_length
    have hle := uncovered_around_le (B := blocks) b (spell p.replacement) a
    rw [spell_append, List.length_append, spell_singleton]
    omega

theorem uncovered_run {rs : List (Rule Char)} (h : rs ⊆ rules) (s : Text) :
    uncovered blocks (Pass.run rs s).content + (Pass.run rs s).applied.length * 16 ≤
      uncovered blocks s :=
  (Pass.edits_run h s).measure_le fun _ hr _ _ => uncovered_edit hr

/-- The rules that fire in a pass never undo each other's edits. -/
theorem run_content_eq_iff {rs : List (Rule Char)} (h : rs ⊆ rules) (s : Text) :
    (Pass.run rs s).content = s ↔ (Pass.run rs s).applied = [] := by
  constructor
  · intro e
    have hle := uncovered_run h s
    rw [e] at hle
    exact List.eq_nil_of_length_eq_zero (by omega)
  · intro e
    rw [Pass.run_of_not_occurs (Pass.applied_eq_nil_iff.1 e)]

/-- Sixteen times the number of reported rules is at most the length of the text, and at most one
pass for every 16 code points leaves nothing to patch. -/
theorem repeated_passes_end (c : Text) :
    (∀ calls : List (List (Rule Char)), (∀ rs ∈ calls, rs ⊆ rules) →
      Pass.appliedCount calls c * 16 ≤ c.length) ∧
    ∃ n ≤ c.length / 16, Pass.run rules (Pass.through (List.replicate n rules) c) =
      ⟨Pass.through (List.replicate n rules) c, []⟩ := by
  have hcount : ∀ calls : List (List (Rule Char)), (∀ rs ∈ calls, rs ⊆ rules) →
      Pass.appliedCount calls c * 16 ≤ c.length := by
    intro calls hc
    have h : Pass.appliedCount calls c * 16 ≤ uncovered blocks c :=
      Pass.appliedCount_le (fun r hr s t => uncovered_edit hr) hc c
    exact h.trans (uncovered_le_length c)
  refine ⟨hcount, Pass.exists_settled ?_⟩
  have hsub : ∀ rs ∈ List.replicate (c.length / 16 + 1) rules, rs ⊆ rules := by
    intro rs hrs
    rw [List.eq_of_mem_replicate hrs]
    exact List.Subset.refl rules
  have h := hcount _ hsub
  omega

theorem repeated_passes_end_editorList :
    Pass.appliedCount [[unguardEditorList], [macEditorGuard, unguardEditorList]]
        (editorList ++ editorListGuard ++ editorListGuard) = 2 ∧
      Pass.appliedCount [[unguardEditorList], [macEditorGuard, unguardEditorList]]
        (editorList ++ editorListGuard ++ editorListGuard) * 16 ≤
          (editorList ++ editorListGuard ++ editorListGuard).length :=
  ⟨by decide +kernel, (repeated_passes_end _).1 _ (by simp [rules])⟩

end BundlePatch.Catalogue
