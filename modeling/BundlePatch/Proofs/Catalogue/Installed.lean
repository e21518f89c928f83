import BundlePatch.Proofs.Catalogue.Schedule
import BundlePatch.Proofs.Rewriting.Foreign
import BundlePatch.Proofs.Rewriting.Growth

/-!
# What is installed stays

The new lookup and the new detectors are foreign to all rules, although they begin and end like
what they replace. So no pass damages one that stands in the text, and there is one more of them
for each time that its rule was reported (`installed_replacements_stay`).
-/

namespace BundlePatch.Catalogue

open Pattern

theorem swapOutlines_settled : ∀ p ∈ swapOutlines, ∃ m ∈ settled, p.replacement = [m] := by
  decide

/-- What a swap inserts is foreign to every rule. -/
theorem foreign_of_swap {r r' : Rule Char} (hr : r ∈ swaps) (hr' : r' ∈ rules) :
    r'.Foreign r.replacement := by
  obtain ⟨p, hp, rfl⟩ := outline_of_mem_swaps hr
  obtain ⟨m, hm, e⟩ := swapOutlines_settled p hp
  have htext : (spelled p).replacement = m.text := by
    rw [spelled, e, spell_singleton]
  rw [htext]
  refine ⟨m.text_ne_nil, fun k hk => ?_⟩
  obtain ⟨q, hq, ms, hms, -, rfl⟩ := candidate_spelled hr' hk
  exact (Phrase.apart_spell (outline_candidates_unsettled q hq ms hms m hm)
    (outline_candidates q hq ms hms).1).symm

theorem swaps_subset : swaps ⊆ rules := List.drop_subset 3 rules

theorem starts_edit_swap {r r' : Rule Char} (hr : r ∈ swaps) (hr' : r' ∈ rules) {s t : Text}
    (h : r'.Edit s t) :
    starts [r.replacement] s + (if r'.name = r.name then 1 else 0) ≤
      starts [r.replacement] t := by
  have hle := (foreign_of_swap hr hr').starts_add_le h
  split
  · rename_i hname
    obtain rfl : r' = r := List.inj_on_of_nodup_map names_nodup hr' (swaps_subset hr) hname
    have hpos : 0 < starts [r'.replacement] r'.replacement :=
      starts_pos_iff.2 ⟨_, List.mem_cons_self, List.infix_refl _⟩
    omega
  · omega

/-- A pass loses no occurrence of what a swap inserts, and adds one if it reports the swap. So
whatever passes come after one another, there are as many more as there were reports, what was
inserted once is there in the end, and no later pass takes any away. -/
theorem installed_replacements_stay (c : Text) {r : Rule Char} (hr : r ∈ swaps) :
    let new := r.replacement
    let p := Pass.run rules c
    starts [new] c + (if r.name ∈ p.applied then 1 else 0) ≤ starts [new] p.content ∧
    ∀ calls : List (List (Rule Char)), (∀ rs ∈ calls, rs ⊆ rules) →
      starts [new] c + (Pass.reported calls c).count r.name ≤ starts [new] (Pass.through calls c) ∧
      (r.name ∈ Pass.reported calls c → new <:+: Pass.through calls c) ∧
      ∀ later : List (List (Rule Char)), (∀ rs ∈ later, rs ⊆ rules) →
        starts [new] (Pass.through calls c) ≤ starts [new] (Pass.through (calls ++ later) c) := by
  intro new p
  have hstep : ∀ r' ∈ rules, ∀ s t, r'.Edit s t →
      starts [new] s + (if r'.name = r.name then 1 else 0) ≤ starts [new] t :=
    fun _ hr' _ _ => starts_edit_swap hr hr'
  refine ⟨?_, fun calls hcalls => ?_⟩
  · have hrun : starts [new] c + p.applied.count r.name ≤ starts [new] p.content :=
      Pass.count_add_le_run hstep (List.Subset.refl rules) c
    split
    · rename_i hmem
      have hpos : 0 < p.applied.count r.name := List.count_pos_iff.2 hmem
      omega
    · omega
  · have hle := Pass.count_add_le_through hstep hcalls c
    refine ⟨hle, fun hmem => ?_, fun later hlater => ?_⟩
    · have hpos : 0 < (Pass.reported calls c).count r.name := List.count_pos_iff.2 hmem
      have hin : 0 < starts [new] (Pass.through calls c) := by omega
      simpa using starts_pos_iff.1 hin
    · have hmore := Pass.count_add_le_through hstep hlater (Pass.through calls c)
      rw [Pass.through_append]
      omega

/-- A new detector beside two old ones. -/
theorem installed_replacements_stay_detector :
    let c := spell [.newVscode, .bareVscode, .oldVscode]
    let calls := [[detectVscode, macEditorGuard], rules]
    detectVscode ∈ swaps ∧ (∀ rs ∈ calls, rs ⊆ rules) ∧ starts [vscode.closure] c = 1 ∧
      Pass.reported calls c = ["vscode-detect", "vscode-detect"] ∧
      3 ≤ starts [vscode.closure] (Pass.through calls c) ∧
      vscode.closure <:+: Pass.through calls c := by
  intro c calls
  have hr : detectVscode ∈ swaps := by simp [swaps]
  have hcalls : ∀ rs ∈ calls, rs ⊆ rules := by simp [calls, rules]
  have hclosure : vscode.closure = Phrase.newVscode.chars := Phrase.text_eq_chars .newVscode
  have hone : starts [vscode.closure] c = 1 := by
    simp only [c, hclosure, spell_eq_chars]
    decide +kernel
  have hreported : Pass.reported calls c = ["vscode-detect", "vscode-detect"] := by
    simp only [calls, c, rules_eq_spelledOut, spell_eq_chars, ← spelled_detectVscode,
      ← spelled_macEditorGuard, spelled_eq_spelledOut]
    decide +kernel
  obtain ⟨hle, hin, -⟩ := (installed_replacements_stay c hr).2 calls hcalls
  have hthree : 1 + 2 ≤ starts [vscode.closure] (Pass.through calls c) := by
    rwa [hreported, show [_, _].count detectVscode.name = 2 by decide,
      show starts [detectVscode.replacement] c = 1 from hone] at hle
  exact ⟨hr, hcalls, hone, hreported, hthree, hin (by rw [hreported]; decide)⟩

end BundlePatch.Catalogue
