import BundlePatch.Proofs.Catalogue.Firing
import BundlePatch.Proofs.Pattern.Seam
import Mathlib.Data.List.Nodup

/-!
# Rules that are skipped

A rule that a pass does not report has no candidate in the text that the pass leaves either: its
turn found none, and the rules after it bring none about (`not_occurs_of_skipped`). The guard for
macOS is the exception, since its turn comes before that of the guard for Windows, whose removal
may join two halves of it. That happens at one place at most (`skipped_rules_stay_idle`).
-/

namespace BundlePatch.Catalogue

open Pattern

/-! ## Rules after the first -/

/-- All rules after any but the first are later rules. -/
theorem subset_later_of_outlines_eq {before after : List (Rule Phrase)} {p : Rule Phrase}
    (hp : p ≠ Outline.macEditorGuard) (e : outlines = before ++ p :: after) :
    after ⊆ laterOutlines := by
  cases before with
  | nil => exact absurd (List.cons.inj e).1.symm hp
  | cons q before =>
    have hafter : after = laterOutlines.drop before.length := by
      rw [laterOutlines, List.drop_drop, Nat.add_comm, e]
      simp
    rw [hafter]
    exact List.drop_subset _ _

theorem not_occurs_of_skipped {p : Rule Phrase} (hp : p ∈ outlines)
    (hmac : p ≠ Outline.macEditorGuard) {c : Text}
    (hn : (spelled p).name ∉ (Pass.run rules c).applied) :
    ¬ (spelled p).Occurs (Pass.run rules c).content := by
  obtain ⟨before, after, e, hrules, hothers⟩ := exists_rules_split hp
  have hafter : p ∉ after := mt (List.mem_append_right before) hothers
  rw [hrules] at hn ⊢
  obtain ⟨hidle, hrun⟩ := Pass.run_of_name_not_mem_applied (hrules ▸ names_nodup) hn
  rw [hrun, Pass.run_append, ← remaining_pos_iff,
    remaining_run_later hp (subset_later_of_outlines_eq hmac e) hafter, remaining_pos_iff]
  exact hidle

/-! ## The guard for macOS -/

theorem macEditorGuard_occurs_iff {s : Text} : macEditorGuard.Occurs s ↔ macGuard <:+: s := by
  simp [Rule.Occurs, macEditorGuard]

theorem windowsEditorGuard_occurs_iff {s : Text} :
    windowsEditorGuard.Occurs s ↔ windowsGuard <:+: s := by
  simp [Rule.Occurs, windowsEditorGuard]

theorem not_infix_of_mac_skipped {c : Text}
    (hn : macEditorGuard.name ∉ (Pass.run rules c).applied) : ¬ macGuard <:+: c := by
  rw [← macEditorGuard_occurs_iff]
  exact mt (name_mem_applied_of_occurs (by simp [rules])) hn

theorem not_infix_of_windows_skipped {c : Text}
    (hn : windowsEditorGuard.name ∉ (Pass.run rules c).applied) : ¬ windowsGuard <:+: c := by
  rw [← windowsEditorGuard_occurs_iff]
  exact mt (name_mem_applied_of_occurs (by simp [rules])) hn

/-- Without a guard for macOS, that for Windows is removed from the text as it is. -/
theorem exists_windows_site {c : Text} (hmac : ¬ macGuard <:+: c)
    (hwin : windowsEditorGuard.name ∈ (Pass.run rules c).applied) :
    ∃ o, windowsEditorGuard.Site c windowsGuard o ∧
      (Pass.run (rules.take 2) c).content = o.before ++ o.after := by
  have hrun : Pass.run [macEditorGuard] c = ⟨c, []⟩ :=
    Pass.run_of_not_occurs (by simpa [macEditorGuard_occurs_iff] using hmac)
  have hrules : rules = [macEditorGuard] ++ windowsEditorGuard :: rules.drop 2 := rfl
  have hoccurs : windowsEditorGuard.Occurs c := by
    rw [hrules, Pass.name_mem_applied_append_iff (hrules ▸ names_nodup), hrun] at hwin
    exact hwin
  cases hf : windowsEditorGuard.fire? c with
  | none => exact absurd hoccurs (Rule.fire?_eq_none_iff.1 hf)
  | some t =>
    obtain ⟨k, o, hsite, rfl⟩ := Rule.fire?_eq_some_iff.1 hf
    obtain rfl : k = windowsGuard := List.mem_singleton.1 hsite.mem
    refine ⟨o, hsite, ?_⟩
    rw [show rules.take 2 = [macEditorGuard] ++ [windowsEditorGuard] from rfl, Pass.run_append,
      hrun, Pass.run_cons_some hf, Pass.run_nil]
    simp [Occurrence.replace, windowsEditorGuard]

theorem starts_macGuard_run (c : Text) :
    starts [macGuard] (Pass.run rules c).content =
      starts [macGuard] (Pass.run (rules.take 2) c).content := by
  have hp : Outline.macEditorGuard ∈ guardOutlines := by decide
  have h := remaining_run_later (List.mem_of_mem_take hp) (List.Subset.refl laterOutlines)
    (guardOutlines_disjoint _ hp) (Pass.run (rules.take 2) c).content
  rw [remaining_of_ne (by decide), spelled_macEditorGuard] at h
  rw [run_rules_content]
  exact h

/-- No candidate of a skipped rule occurs in the text that the pass leaves, except for the guard for
macOS where that for Windows was removed. Then there is at most one, and it stood across the place
from which the guard for Windows had been taken out. -/
theorem skipped_rules_stay_idle (c : Text) :
    let p := Pass.run rules c
    (∀ r ∈ rules, r.name ∉ p.applied →
      r ≠ macEditorGuard ∨ windowsEditorGuard.name ∉ p.applied → ¬ r.Occurs p.content) ∧
    (macEditorGuard.name ∉ p.applied → windowsEditorGuard.name ∈ p.applied →
      starts [macGuard] p.content ≤ 1 ∧
      (macGuard <:+: p.content →
        let d := (Pass.run (rules.take 2) c).content
        starts [macGuard] d = 1 ∧
          ∃ o, windowsEditorGuard.Site c windowsGuard o ∧ d = o.before ++ o.after ∧
            Spans macGuard o.before o.after)) := by
  intro p
  constructor
  · intro r hr hn hor
    obtain ⟨q, hq, rfl⟩ := outline_of_mem_rules hr
    by_cases hmac : q = Outline.macEditorGuard
    · subst hmac
      rw [spelled_macEditorGuard] at hn hor ⊢
      have hwin : windowsEditorGuard.name ∉ p.applied := hor.resolve_left (absurd rfl)
      have hc : Unguarded c :=
        unguarded_iff.2 ⟨not_infix_of_mac_skipped hn, not_infix_of_windows_skipped hwin⟩
      rw [macEditorGuard_occurs_iff]
      exact (unguarded_iff.1 (unguarded_run_rules hc)).1
    · exact not_occurs_of_skipped hq hmac hn
  · intro hn hwin
    have hmac : ¬ macGuard <:+: c := not_infix_of_mac_skipped hn
    obtain ⟨o, hsite, hd⟩ := exists_windows_site hmac hwin
    have hsplit : c = o.before ++ windowsGuard ++ o.after := hsite.2.split
    have hb : ¬ macGuard <:+: o.before := fun h =>
      hmac (hsplit ▸ h.trans ⟨[], windowsGuard ++ o.after, by simp⟩)
    have ha : ¬ macGuard <:+: o.after := fun h =>
      hmac (hsplit ▸ h.trans ⟨o.before ++ windowsGuard, [], by simp⟩)
    have hk : macGuard ≠ [] := Phrase.text_ne_nil .macGuard
    have hone : starts [macGuard] (o.before ++ o.after) ≤ 1 :=
      starts_append_le_one hk (Phrase.clear .macGuard) hb ha
    refine ⟨?_, fun h => ?_⟩
    · rw [starts_macGuard_run, hd]
      exact hone
    · have hpos : 0 < starts [macGuard] p.content := starts_pos_iff.2 ⟨_, List.mem_cons_self, h⟩
      rw [starts_macGuard_run, hd] at hpos
      have hin : macGuard <:+: o.before ++ o.after := by simpa using starts_pos_iff.1 hpos
      refine ⟨hd ▸ Nat.le_antisymm hone hpos, o, hsite, hd, ?_⟩
      exact ((List.infix_append_iff_ne_nil.1 hin).resolve_left hb).resolve_left ha

/-- A guard for Windows inside a guard for macOS. -/
theorem skipped_rules_stay_idle_nested_guard :
    let c := macGuard.take 3 ++ windowsGuard ++ macGuard.drop 3
    let p := Pass.run rules c
    p.applied = [windowsEditorGuard.name] ∧ p.content = macGuard ∧ starts [macGuard] p.content ≤ 1 ∧
      (∃ o, windowsEditorGuard.Site c windowsGuard o ∧ macGuard = o.before ++ o.after ∧
        Spans macGuard o.before o.after) ∧
      ¬ resolveCommand.Occurs p.content := by
  intro c p
  have hmac : macGuard = Phrase.macGuard.chars := Phrase.text_eq_chars .macGuard
  have hwin : windowsGuard = Phrase.windowsGuard.chars := Phrase.text_eq_chars .windowsGuard
  have hrun : p = ⟨macGuard, [windowsEditorGuard.name]⟩ := by
    simp only [p, c, hmac, hwin, rules_eq_spelledOut]
    decide +kernel
  have hd : (Pass.run (rules.take 2) c).content = macGuard := by
    simp only [c, hmac, hwin, rules_eq_spelledOut]
    decide +kernel
  have happlied : p.applied = [windowsEditorGuard.name] := by rw [hrun]
  have hcontent : p.content = macGuard := by rw [hrun]
  obtain ⟨hidle, hnested⟩ := skipped_rules_stay_idle c
  obtain ⟨hone, hspan⟩ := hnested (happlied ▸ by decide) (happlied ▸ by decide)
  obtain ⟨-, o, hsite, hsplit, hspans⟩ := hspan (hcontent ▸ List.infix_refl _)
  refine ⟨happlied, hcontent, hone, ⟨o, hsite, hd ▸ hsplit, hspans⟩, ?_⟩
  exact hidle resolveCommand (by simp [rules]) (happlied ▸ by decide) (.inl (by decide))

end BundlePatch.Catalogue
