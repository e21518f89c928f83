import BundlePatch.Proofs.Catalogue.Firing
import BundlePatch.Proofs.Catalogue.Termination
import BundlePatch.Proofs.Rewriting.Schedule
import Mathlib.Data.List.Nodup

/-!
# What each pass does

In a text without editor guards each pass makes one edit for every later rule that has any left
(`applied_run_through`). The rules for the lookup and the detectors put a new text in the place of
one of two old ones. Where these stand is a sequence of marks, which every pass advances by one:
the places of the first old text come before those of the second, and both go from left to right
(`marks_through`). So it is known what every pass does, and when there is nothing left
(`passes_schedule`).
-/

namespace BundlePatch.Catalogue

open Pattern

/-! ## Swaps -/

/-- The rules that put a new text in the place of one of two old ones. -/
def swaps : List (Rule Char) := [resolveCommand, detectVscode, detectVscodeInsiders]

def swapOutlines : List (Rule Phrase) := outlines.drop 3

theorem map_spelled_swapOutlines : swapOutlines.map spelled = swaps := by
  simp only [swapOutlines, outlines, List.drop_succ_cons, List.drop_zero, List.map_cons,
    List.map_nil, spelled_resolveCommand, spelled_detectVscode, spelled_detectVscodeInsiders, swaps]

theorem swaps_candidates : ∀ r ∈ swaps, ∃ k k', r.candidates = [k, k'] := by
  simp [swaps, resolveCommand, detectVscode, detectVscodeInsiders]

theorem outline_of_mem_swaps {r : Rule Char} (h : r ∈ swaps) :
    ∃ p ∈ swapOutlines, spelled p = r := by
  rw [← map_spelled_swapOutlines] at h
  exact List.mem_map.1 h

theorem swapOutlines_later :
    ∀ p ∈ swapOutlines, p ∈ laterOutlines ∧ p ≠ Outline.unguardEditorList := by
  decide

theorem remaining_of_swap {p : Rule Phrase} (hp : p ∈ swapOutlines) :
    remaining p = starts (spelled p).candidates :=
  remaining_of_ne (swapOutlines_later p hp).2

/-- What is left for the later rules: copies of the guard of the editor list, and places of old
texts. -/
theorem forall_later_iff {P : Rule Char → Nat → Prop} {s : Text} :
    (∀ p ∈ laterOutlines, P (spelled p) (remaining p s)) ↔
      P unguardEditorList (stacked editorList editorListGuard s) ∧
        ∀ r ∈ swaps, P r (starts r.candidates s) := by
  have hlater : laterOutlines = Outline.unguardEditorList :: swapOutlines := rfl
  rw [hlater, List.forall_mem_cons, spelled_unguardEditorList, remaining_unguardEditorList,
    ← map_spelled_swapOutlines, List.forall_mem_map]
  exact and_congr_right' (forall₂_congr fun p hp => by rw [remaining_of_swap hp])

/-! ## Marks -/

/-- What a swap looks for and what it inserts have no phrase in common. -/
theorem swapOutlines_patterns :
    ∀ p ∈ swapOutlines, p.patterns.Nodup ∧ (∀ ms ∈ p.patterns, ms ≠ [] ∧ ms.Nodup) ∧
      ∀ ms ∈ p.patterns, ∀ ms' ∈ p.patterns, ms = ms' ∨ ∀ m ∈ ms, m ∉ ms' := by
  decide

theorem exists_blocks {p : Rule Phrase} (hp : p ∈ swapOutlines) :
    ∃ B : Blocks Char, B.patterns = (spelled p).patterns := by
  obtain ⟨-, h, hd⟩ := swapOutlines_patterns p hp
  exact ⟨spelledBlocks p.patterns h hd, rfl⟩

theorem spelled_patterns_nodup {p : Rule Phrase} (hp : p ∈ swapOutlines) :
    (spelled p).patterns.Nodup := by
  obtain ⟨hnodup, h, hd⟩ := swapOutlines_patterns p hp
  refine hnodup.map_on (f := spell) ?_
  intro ms hms ms' hms' e
  refine (hd ms hms ms' hms').resolve_right fun hdisjoint => ?_
  have hlen : 16 ≤ (spell ms').length := sixteen_le_length_spell (h ms' hms').1
  have hne : spell ms' ≠ [] := List.length_pos_iff.1 (by omega)
  exact (apart_spell hdisjoint (h ms hms).1 (h ms' hms').1).not_agree hne (e ▸ .refl _)

/-- The edits of another rule leave the marks as they are. -/
theorem marks_eq_of_edit {p q : Rule Phrase} (hp : p ∈ laterOutlines) (hq : q ∈ laterOutlines)
    (hne : p ≠ q) {s t : Text} (h : (spelled p).Edit s t) :
    marks (spelled q).patterns t = marks (spelled q).patterns s :=
  h.marks_eq (spelled_patterns_ne_nil hp) fun x hx k hk =>
    (spelled_patterns_apart hp hq hne x hx k hk).symm

theorem marks_run_later {p : Rule Phrase} (hp : p ∈ swapOutlines) (s : Text) :
    marks (spelled p).patterns (Pass.run (laterOutlines.map spelled) s).content =
      (spelled p).advance (marks (spelled p).patterns s) := by
  obtain ⟨B, hB⟩ := exists_blocks hp
  have hlater : p ∈ laterOutlines := (swapOutlines_later p hp).1
  obtain ⟨before, after, e⟩ := List.append_of_mem hlater
  have hnodup : (before ++ p :: after).Nodup := e ▸ laterOutlines_tracks.nodup
  rw [e, List.map_append, List.map_cons]
  refine Pass.marks_run hB ?_ s
  intro r hr s t hst
  rw [← List.map_append] at hr
  obtain ⟨q, hq, rfl⟩ := List.mem_map.1 hr
  have hqp : q ≠ p := by
    rintro rfl
    exact (List.nodup_middle.1 hnodup).notMem hq
  have hqlater : q ∈ laterOutlines :=
    e ▸ ((List.sublist_cons_self p after).append_left before).subset hq
  exact marks_eq_of_edit hqlater hlater hqp hst

/-! ## Passes in a row -/

theorem unguarded_through {s : Text} (h : Unguarded s) (j : Nat) :
    Unguarded (Pass.through (List.replicate j rules) s) := by
  induction j generalizing s with
  | zero => exact h
  | succ j ih =>
    rw [Pass.through_replicate_succ]
    exact ih (unguarded_run_rules h)

theorem through_rules_of_unguarded {s : Text} (h : Unguarded s) (j : Nat) :
    Pass.through (List.replicate j rules) s =
      Pass.through (List.replicate j (laterOutlines.map spelled)) s := by
  induction j generalizing s with
  | zero => rfl
  | succ j ih =>
    rw [Pass.through_replicate_succ, Pass.through_replicate_succ, ih (unguarded_run_rules h),
      run_rules_of_unguarded h]

/-- The pass after `j` others reports the rules that had more than `j` edits to do. -/
theorem applied_run_through {s : Text} (h : Unguarded s) (j : Nat) :
    (Pass.run rules (Pass.through (List.replicate j rules) s)).applied =
      (laterOutlines.filter fun p => j < remaining p s).map fun p => (spelled p).name := by
  rw [run_rules_of_unguarded (unguarded_through h j), through_rules_of_unguarded h]
  exact laterOutlines_tracks.applied_through j s

theorem outlines_names :
    ∀ p ∈ outlines, ∀ q ∈ laterOutlines, (spelled q).name = (spelled p).name → q = p := by
  decide

theorem name_mem_applied_through_iff {p : Rule Phrase} (hp : p ∈ outlines) {s : Text}
    (h : Unguarded s) (j : Nat) :
    (spelled p).name ∈ (Pass.run rules (Pass.through (List.replicate j rules) s)).applied ↔
      p ∈ laterOutlines ∧ j < remaining p s := by
  rw [applied_run_through h, List.mem_map]
  simp only [List.mem_filter, decide_eq_true_eq]
  constructor
  · rintro ⟨q, hq, hname⟩
    rwa [← outlines_names p hp q hq.1 hname]
  · exact fun hlt => ⟨p, hlt, rfl⟩

/-- The passes leave the text as it is as soon as there were as many as the most that a rule had to
do. -/
theorem content_through_eq_iff {s : Text} (h : Unguarded s) (j : Nat) :
    let text (j : Nat) : Text := Pass.through (List.replicate j rules) s
    text (j + 1) = text j ↔ ∀ p ∈ laterOutlines, remaining p s ≤ j := by
  intro text
  rw [show text (j + 1) = _ from (Pass.content_run_through rules j s).symm,
    run_content_eq_iff (List.Subset.refl rules), applied_run_through h, List.map_eq_nil_iff,
    List.filter_eq_nil_iff]
  simp only [decide_eq_true_eq, Nat.not_lt]

theorem marks_through {r : Rule Char} (hr : r ∈ swaps) {s : Text} (h : Unguarded s) (j : Nat) :
    marks r.patterns (Pass.through (List.replicate j rules) s) =
      r.advance^[j] (marks r.patterns s) := by
  obtain ⟨p, hp, rfl⟩ := outline_of_mem_swaps hr
  rw [through_rules_of_unguarded h]
  exact Pass.through_replicate (marks_run_later hp) j s

/-- The places of the second old text wait for those of the first. -/
theorem starts_through {r : Rule Char} (hr : r ∈ swaps) {k k' : Text} (hk : r.candidates = [k, k'])
    {s : Text} (h : Unguarded s) (j : Nat) :
    let t := Pass.through (List.replicate j rules) s
    starts [k] t = starts [k] s - j ∧ starts [k'] t = starts [k'] s - (j - starts [k] s) := by
  intro t
  have hmarks := marks_through hr h j
  obtain ⟨p, hp, rfl⟩ := outline_of_mem_swaps hr
  obtain ⟨B, hB⟩ := exists_blocks hp
  have hpatterns : (spelled p).patterns = [(spelled p).replacement, k, k'] := by
    rw [Rule.patterns, hk]
  have hnodup := spelled_patterns_nodup hp
  rw [hpatterns] at hnodup
  simp only [List.nodup_cons, List.mem_cons, List.not_mem_nil, or_false, not_or] at hnodup
  obtain ⟨⟨hRk, hRk'⟩, hkk', -⟩ := hnodup
  have hcount := Rule.count_iterate_advance hk (Ne.symm hkk') hRk hRk' j
    (marks (spelled p).patterns s)
  have hkB : k ∈ B.patterns := by simp [hB, hpatterns]
  have hkB' : k' ∈ B.patterns := by simp [hB, hpatterns]
  rw [← hmarks, ← hB] at hcount
  simpa only [count_marks hkB, count_marks hkB'] using hcount

/-! ## The schedule -/

/-- In a text without editor guards each rule has a number of edits to do: the editor list one for
each copy of its guard, each swap one for each place of an old text. The pass after `j` others
fires the rules that had more than `j`, so the text is stable after the most that a rule had. A swap
edits its first old text before its second, and either from left to right. -/
theorem passes_schedule {c : Text} (hmac : ¬ macGuard <:+: c) (hwin : ¬ windowsGuard <:+: c) :
    let text (j : Nat) : Text := Pass.through (List.replicate j rules) c
    let reported (j : Nat) : List String := (Pass.run rules (text j)).applied
    (∀ n j, j < n → (Pass.successive rules n c)[j]? = some (Pass.run rules (text j))) ∧
    (∀ j, macEditorGuard.name ∉ reported j ∧ windowsEditorGuard.name ∉ reported j ∧
      (unguardEditorList.name ∈ reported j ↔ j < stacked editorList editorListGuard c) ∧
      ∀ r ∈ swaps, (r.name ∈ reported j ↔ j < starts r.candidates c)) ∧
    (∀ j, text (j + 1) = text j ↔
      (swaps.map fun r => starts r.candidates c).foldr max (stacked editorList editorListGuard c) ≤
        j) ∧
    ∀ r ∈ swaps, ∃ k k', r.candidates = [k, k'] ∧ ∀ j,
      marks r.patterns (text j) = r.advance^[j] (marks r.patterns c) ∧
      starts [k] (text j) = starts [k] c - j ∧
      starts [k'] (text j) = starts [k'] c - (j - starts [k] c) := by
  intro text reported
  have hc : Unguarded c := unguarded_iff.2 ⟨hmac, hwin⟩
  have hguard {p : Rule Phrase} (hp : p ∈ guardOutlines) (j : Nat) :
      (spelled p).name ∉ reported j := by
    rw [name_mem_applied_through_iff (List.mem_of_mem_take hp) hc j]
    exact fun h => guardOutlines_disjoint p hp h.1
  refine ⟨fun n j hj => Pass.getElem?_successive hj c, fun j => ⟨?_, ?_, ?_⟩, fun j => ?_,
    fun r hr => ?_⟩
  · exact spelled_macEditorGuard ▸ hguard (p := Outline.macEditorGuard) (by decide) j
  · exact spelled_windowsEditorGuard ▸ hguard (p := Outline.windowsEditorGuard) (by decide) j
  · refine forall_later_iff (P := fun r n => r.name ∈ reported j ↔ j < n).1 fun p hp => ?_
    rw [name_mem_applied_through_iff (mem_outlines_of_later hp) hc j, and_iff_right hp]
  · refine (content_through_eq_iff hc j).trans ?_
    rw [forall_later_iff (P := fun _ n => n ≤ j)]
    simp only [swaps, List.forall_mem_cons, List.map_cons, List.map_nil, List.foldr_cons,
      List.foldr_nil, Nat.max_le, List.not_mem_nil, false_implies, implies_true, and_true]
    omega
  · obtain ⟨k, k', hk⟩ := swaps_candidates r hr
    exact ⟨k, k', hk, fun j => ⟨marks_through hr hc j, starts_through hr hk hc j⟩⟩

/-- Two old detectors of VS Code: the second one is listed first. -/
theorem passes_schedule_two_detectors :
    let old := oldDetector ["code".toList, "codium".toList] vscodeAppPaths
    let bare := oldDetector [] vscodeAppPaths
    let c := bare ++ old
    let text (j : Nat) : Text := Pass.through (List.replicate j rules) c
    ¬ macGuard <:+: c ∧ ¬ windowsGuard <:+: c ∧
      marks detectVscode.patterns (text 1) = [bare, vscode.closure] ∧
      marks detectVscode.patterns (text 2) = [vscode.closure, vscode.closure] ∧
      text 2 ≠ text 1 ∧ text 3 = text 2 := by
  intro old bare c text
  have hmac : ¬ macGuard <:+: c := by decide +kernel
  have hwin : ¬ windowsGuard <:+: c := by decide +kernel
  have hlist : stacked editorList editorListGuard c = 0 := by
    refine Nat.eq_zero_of_not_pos (mt (stacked_pos_iff (by decide)).1 ?_)
    decide +kernel
  have hmost : (swaps.map fun r => starts r.candidates c).foldr max 0 = 2 := by decide +kernel
  obtain ⟨-, -, stable, swap⟩ := passes_schedule hmac hwin
  rw [hlist, hmost] at stable
  obtain ⟨_, _, -, hmarks⟩ := swap detectVscode (by simp [swaps])
  refine ⟨hmac, hwin, (hmarks 1).1.trans ?_, (hmarks 2).1.trans ?_, mt (stable 1).1 (by decide),
    (stable 2).2 (by decide)⟩ <;> decide +kernel

end BundlePatch.Catalogue
