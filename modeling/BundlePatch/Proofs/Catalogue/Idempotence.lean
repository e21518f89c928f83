import BundlePatch.Proofs.Catalogue.Confluence
import BundlePatch.Proofs.Rewriting.Counting

/-!
# When one pass is enough

The first two rules remove editor guards, which may bring any candidate about. What the
later rules insert keeps apart from the candidates, so each of them does one edit out of
those that it could do (`laterOutlines_tracks`). A second pass is idle exactly if the first
two rules leave no guard behind and none of the later rules has more than one edit to do
(`second_pass_idle_iff`).
-/

namespace BundlePatch.Catalogue

open Pattern

/-- The rules that remove an editor guard. -/
def guardOutlines : List (Rule Phrase) := outlines.take 2

/-- The rules that come after them. -/
def laterOutlines : List (Rule Phrase) := outlines.drop 2

theorem guardOutlines_append : guardOutlines ++ laterOutlines = outlines :=
  List.take_append_drop 2 outlines

theorem map_spelled_laterOutlines : laterOutlines.map spelled = rules.drop 2 := by
  rw [← map_spelled_outlines, laterOutlines, List.map_drop]

/-- The number of edits that are left for the rule in a text. -/
def remaining (p : Rule Phrase) : Text → Nat :=
  if p = Outline.unguardEditorList then stacked editorList editorListGuard
  else starts (spelled p).candidates

theorem remaining_unguardEditorList :
    remaining Outline.unguardEditorList = stacked editorList editorListGuard :=
  if_pos rfl

theorem remaining_of_ne {p : Rule Phrase} (h : p ≠ Outline.unguardEditorList) :
    remaining p = starts (spelled p).candidates :=
  if_neg h

/-! ## Phrases of the later rules -/

theorem laterOutlines_patterns : ∀ p ∈ laterOutlines, ∀ ms ∈ p.patterns, ms ≠ [] := by
  decide

theorem guardOutlines_disjoint : ∀ p ∈ guardOutlines, p ∉ laterOutlines := by
  decide

theorem laterOutlines_disjoint :
    ∀ p ∈ laterOutlines, ∀ q ∈ outlines, p ≠ q →
      ∀ ms ∈ p.patterns, ∀ ms' ∈ q.candidates, ∀ m ∈ ms', m ∉ ms := by
  decide

theorem laterOutlines_patterns_disjoint :
    ∀ p ∈ laterOutlines, ∀ q ∈ laterOutlines, p ≠ q →
      ∀ ms ∈ p.patterns, ∀ ms' ∈ q.patterns, ∀ m ∈ ms, m ∉ ms' := by
  decide

/-- Only the rule for the editor list keeps a part of its candidate. -/
theorem laterOutlines_replacement :
    ∀ p ∈ laterOutlines, p ≠ Outline.unguardEditorList →
      ∀ ms ∈ p.candidates, ∀ m ∈ ms, m ∉ p.replacement := by
  decide

theorem mem_outlines_of_later {p : Rule Phrase} (hp : p ∈ laterOutlines) : p ∈ outlines :=
  List.mem_of_mem_drop hp

theorem spelled_mem_rules {p : Rule Phrase} (hp : p ∈ outlines) : spelled p ∈ rules := by
  rw [← map_spelled_outlines]
  exact List.mem_map_of_mem hp

theorem spelled_patterns_ne_nil {p : Rule Phrase} (hp : p ∈ laterOutlines) :
    ∀ x ∈ (spelled p).patterns, x ≠ [] := by
  intro x hx
  obtain ⟨ms, hms, rfl⟩ := List.mem_map.1 (show x ∈ p.patterns.map spell from hx)
  have := sixteen_le_length_spell (laterOutlines_patterns p hp ms hms)
  exact List.length_pos_iff.1 (by omega)

theorem spelled_patterns_apart {p q : Rule Phrase} (hp : p ∈ laterOutlines)
    (hq : q ∈ laterOutlines) (hne : p ≠ q) :
    ∀ x ∈ (spelled p).patterns, ∀ y ∈ (spelled q).patterns, Apart x y := by
  intro x hx y hy
  obtain ⟨ms, hms, rfl⟩ := List.mem_map.1 (show x ∈ p.patterns.map spell from hx)
  obtain ⟨ms', hms', rfl⟩ := List.mem_map.1 (show y ∈ q.patterns.map spell from hy)
  exact apart_spell (laterOutlines_patterns_disjoint p hp q hq hne ms hms ms' hms')
    (laterOutlines_patterns p hp ms hms) (laterOutlines_patterns q hq ms' hms')

/-! ## One edit at a time -/

/-- What a later rule does keeps apart from what another rule looks for. -/
theorem spelled_keeps {p q : Rule Phrase} (hp : p ∈ laterOutlines) (hq : q ∈ outlines)
    (hne : p ≠ q) : (spelled p).Keeps (remaining q) := by
  by_cases e : q = Outline.unguardEditorList
  · subst e
    have apart {m : Phrase} (hm : m ∈ [Phrase.editorList, Phrase.editorListGuard]) :
        ∀ x ∈ (spelled p).patterns, Apart m.text x := by
      intro x hx
      obtain ⟨ms, hms, rfl⟩ := List.mem_map.1 (show x ∈ p.patterns.map spell from hx)
      refine Phrase.apart_spell ?_ (laterOutlines_patterns p hp ms hms)
      exact laterOutlines_disjoint p hp _ hq hne ms hms _ List.mem_cons_self m hm
    rw [remaining_unguardEditorList]
    exact Rule.keeps_stacked (spelled_patterns_ne_nil hp) (apart (m := .editorList) (by simp))
      (apart (m := .editorListGuard) (by simp))
  · rw [remaining_of_ne e]
    refine Rule.keeps_starts (spelled_patterns_ne_nil hp) ?_
    intro x hx k hk
    obtain ⟨ms, hms, rfl⟩ := List.mem_map.1 (show x ∈ p.patterns.map spell from hx)
    obtain ⟨ms', hms', rfl⟩ := List.mem_map.1 hk
    exact apart_spell (laterOutlines_disjoint p hp q hq hne ms hms ms' hms')
      (outline_candidates q hq ms' hms').1 (laterOutlines_patterns p hp ms hms)

theorem remaining_edit {p : Rule Phrase} (hp : p ∈ laterOutlines) {s t : Text}
    (h : (spelled p).Edit s t) : remaining p t + 1 = remaining p s := by
  by_cases e : p = Outline.unguardEditorList
  · subst e
    rw [spelled_unguardEditorList] at h
    rw [remaining_unguardEditorList]
    have hg : Apart editorListGuard editorList :=
      Phrase.apart (show Phrase.editorListGuard ≠ Phrase.editorList by decide)
    exact h.stacked_succ rfl rfl (Phrase.text_ne_nil .editorList) (Phrase.clear .editorList) hg
  · have hr : spelled p ∈ rules := spelled_mem_rules (mem_outlines_of_later hp)
    rw [remaining_of_ne e]
    refine h.starts_succ (spelled_patterns_ne_nil hp) ?_ ?_
    · exact rules_orthogonal.clear _ hr _ hr
    · intro k hk
      obtain ⟨ms, hms, rfl⟩ := List.mem_map.1 hk
      exact apart_spell (laterOutlines_replacement p hp e ms hms)
        (outline_candidates p (mem_outlines_of_later hp) ms hms).1
        (laterOutlines_patterns p hp _ List.mem_cons_self)

theorem remaining_pos_iff {p : Rule Phrase} (s : Text) :
    0 < remaining p s ↔ (spelled p).Occurs s := by
  by_cases e : p = Outline.unguardEditorList
  · subst e
    have hg : editorListGuard ≠ [] := Phrase.text_ne_nil .editorListGuard
    rw [remaining_unguardEditorList, stacked_pos_iff hg, spelled_unguardEditorList]
    simp [Rule.Occurs, unguardEditorList]
  · rw [remaining_of_ne e, starts_pos_iff]
    rfl

theorem laterOutlines_tracks : Tracks spelled remaining laterOutlines where
  nodup := by decide
  pos_iff := fun _ _ s => remaining_pos_iff s
  own := fun _ hp _ _ h => remaining_edit hp h
  other := fun _ hp _ hq hne => spelled_keeps hp (mem_outlines_of_later hq) hne

/-- What is left for a rule does not change in a pass of later rules that leaves it out. -/
theorem remaining_run_later {p : Rule Phrase} (hp : p ∈ outlines) {qs : List (Rule Phrase)}
    (hqs : qs ⊆ laterOutlines) (hn : p ∉ qs) (s : Text) :
    remaining p (Pass.run (qs.map spelled) s).content = remaining p s := by
  refine Pass.count_run_of_keeps (fun r hr => ?_) s
  obtain ⟨q, hq, rfl⟩ := List.mem_map.1 hr
  have hne : q ≠ p := fun e => hn (e ▸ hq)
  exact spelled_keeps (hqs hq) hp hne

/-! ## The second pass -/

/-- The later rules neither bring an editor guard about nor remove one. -/
theorem guard_occurs_iff {p : Rule Phrase} (hp : p ∈ guardOutlines) (s : Text) :
    (spelled p).Occurs (Pass.run (laterOutlines.map spelled) s).content ↔
      (spelled p).Occurs s := by
  have hkeep := remaining_run_later (List.mem_of_mem_take hp) (List.Subset.refl laterOutlines)
    (guardOutlines_disjoint p hp) s
  rw [← remaining_pos_iff, ← remaining_pos_iff, hkeep]

/-- Where the later rules leave nothing to do for any rule. -/
theorem idle_after_later_iff (s : Text) :
    (∀ r ∈ rules, ¬ r.Occurs (Pass.run (laterOutlines.map spelled) s).content) ↔
      (∀ p ∈ guardOutlines, ¬ (spelled p).Occurs s) ∧ ∀ p ∈ laterOutlines, remaining p s ≤ 1 := by
  rw [← map_spelled_outlines, ← guardOutlines_append, List.forall_mem_map,
    List.forall_mem_append]
  apply and_congr
  · exact forall₂_congr fun p hp => not_congr (guard_occurs_iff hp s)
  · exact forall₂_congr fun p hp => laterOutlines_tracks.not_occurs_run_iff s hp

theorem run_rules_content (c : Text) : (Pass.run rules c).content =
    (Pass.run (laterOutlines.map spelled) (Pass.run (rules.take 2) c).content).content := by
  have hsplit : Pass.run rules c = Pass.run (rules.take 2 ++ rules.drop 2) c := by
    rw [List.take_append_drop]
  rw [hsplit, map_spelled_laterOutlines, Pass.run_append]

/-- The second pass finds nothing to do exactly if the first two rules leave no editor guard, and
each of the others finds at most one place, for the editor list counted with its guards. -/
theorem second_pass_idle_iff (c : Text) :
    let c₁ := (Pass.run rules c).content
    let d := (Pass.run (rules.take 2) c).content
    Pass.run rules c₁ = ⟨c₁, []⟩ ↔
      ¬ macGuard <:+: d ∧ ¬ windowsGuard <:+: d ∧
        (∀ r ∈ [resolveCommand, detectVscode, detectVscodeInsiders],
          starts r.candidates d ≤ 1) ∧
        stacked editorList editorListGuard d ≤ 1 := by
  intro c₁ d
  have hguards : (∀ p ∈ guardOutlines, ¬ (spelled p).Occurs d) ↔
      ¬ macGuard <:+: d ∧ ¬ windowsGuard <:+: d := by
    simp only [guardOutlines, outlines, List.take_succ_cons, List.take_zero,
      List.forall_mem_cons, spelled_macEditorGuard, spelled_windowsEditorGuard]
    simp [Rule.Occurs, macEditorGuard, windowsEditorGuard]
  have hlater : (∀ p ∈ laterOutlines, remaining p d ≤ 1) ↔
      (∀ r ∈ [resolveCommand, detectVscode, detectVscodeInsiders], starts r.candidates d ≤ 1) ∧
        stacked editorList editorListGuard d ≤ 1 := by
    simp only [laterOutlines, outlines, List.drop_succ_cons, List.drop_zero,
      List.forall_mem_cons, remaining_unguardEditorList,
      remaining_of_ne (show Outline.resolveCommand ≠ Outline.unguardEditorList by decide),
      remaining_of_ne (show Outline.detectVscode ≠ Outline.unguardEditorList by decide),
      remaining_of_ne (show Outline.detectVscodeInsiders ≠ Outline.unguardEditorList by decide),
      spelled_resolveCommand, spelled_detectVscode, spelled_detectVscodeInsiders,
      List.not_mem_nil, false_implies, implies_true, and_true]
    exact and_comm
  rw [Pass.run_eq_self_iff, show c₁ = _ from run_rules_content c, idle_after_later_iff, hguards,
    hlater, and_assoc]

end BundlePatch.Catalogue
