import BundlePatch.Proofs.Catalogue.Idempotence
import BundlePatch.Proofs.Rewriting.Firing

/-!
# Which rules fire

A rule of which a candidate occurs in a text fires in the pass over it, whatever the rules before
it do, for these never take its place away (`occurs_run`). The converse holds where no editor
guard occurs: then nothing is brought about on the way (`applied_run_of_unguarded`).
-/

namespace BundlePatch.Catalogue

open Pattern

theorem names_nodup : (rules.map Rule.name).Nodup := by
  decide +kernel

/-! ## Places that last -/

/-- No two rules look for the same text. -/
theorem candidates_disjoint {r r' : Rule Char} (hr : r ∈ rules) (hr' : r' ∈ rules) (hne : r ≠ r') :
    ∀ k ∈ r.candidates, k ∉ r'.candidates := by
  intro k hk hk'
  rcases candidate_eq_or_apart hr hr' hk hk' with ⟨e, -, -⟩ | h
  · exact hne e
  · have hlen : 16 ≤ k.length := sixteen_le_length_candidate hr hk
    have hk0 : k ≠ [] := List.length_pos_iff.1 (by omega)
    exact h.not_agree hk0 (.refl k)

theorem occurs_run {r : Rule Char} (hr : r ∈ rules) {rs : List (Rule Char)} (hrs : rs ⊆ rules)
    (hn : r ∉ rs) {s : Text} (ho : r.Occurs s) : r.Occurs (Pass.run rs s).content := by
  refine (Pass.edits_run (List.Subset.refl rs) s).preserves (fun r' hr' s t hst hs => ?_) ho
  have hne : r ≠ r' := fun e => hn (e ▸ hr')
  exact rules_orthogonal.occurs_of_edit hr (hrs hr') (candidates_disjoint hr (hrs hr') hne) hst hs

theorem name_mem_applied_of_occurs {r : Rule Char} (hr : r ∈ rules) {c : Text}
    (ho : r.Occurs c) : r.name ∈ (Pass.run rules c).applied := by
  obtain ⟨before, after, e⟩ := List.append_of_mem hr
  have hnames : ((before ++ r :: after).map Rule.name).Nodup := e ▸ names_nodup
  have hbefore : r ∉ before := by
    intro h
    rw [List.map_append, List.map_cons, List.nodup_append] at hnames
    exact hnames.2.2 _ (List.mem_map_of_mem h) _ List.mem_cons_self rfl
  have hsub : before ⊆ rules := e ▸ List.subset_append_left before _
  rw [e, Pass.name_mem_applied_append_iff hnames]
  exact occurs_run hr hsub hbefore ho

/-! ## Texts without editor guards -/

/-- No editor guard stands in the text. -/
def Unguarded (s : Text) : Prop := ∀ p ∈ guardOutlines, ¬ (spelled p).Occurs s

theorem unguarded_iff {s : Text} : Unguarded s ↔ ¬ macGuard <:+: s ∧ ¬ windowsGuard <:+: s := by
  simp only [Unguarded, guardOutlines, outlines, List.take_succ_cons, List.take_zero,
    List.forall_mem_cons, spelled_macEditorGuard, spelled_windowsEditorGuard]
  simp [Rule.Occurs, macEditorGuard, windowsEditorGuard]

theorem map_spelled_guard_append_later :
    guardOutlines.map spelled ++ laterOutlines.map spelled = rules := by
  rw [← List.map_append, guardOutlines_append, map_spelled_outlines]

theorem run_rules_of_unguarded {s : Text} (h : Unguarded s) :
    Pass.run rules s = Pass.run (laterOutlines.map spelled) s := by
  have hguards : Pass.run (guardOutlines.map spelled) s = ⟨s, []⟩ :=
    Pass.run_of_not_occurs (List.forall_mem_map.2 h)
  rw [← map_spelled_guard_append_later, Pass.run_append, hguards, List.nil_append]

theorem unguarded_run_rules {s : Text} (h : Unguarded s) :
    Unguarded (Pass.run rules s).content := by
  rw [run_rules_of_unguarded h]
  exact fun p hp => mt (guard_occurs_iff hp s).1 (h p hp)

theorem applied_run_of_unguarded {s : Text} (h : Unguarded s) :
    (Pass.run rules s).applied = (rules.filter fun r => r.Occurs s).map Rule.name := by
  have hguards : (guardOutlines.filter fun p => (spelled p).Occurs s) = [] :=
    List.filter_eq_nil_iff.2 fun p hp => by simpa using h p hp
  have hlater : (laterOutlines.filter fun p => 0 < remaining p s) =
      laterOutlines.filter fun p => (spelled p).Occurs s :=
    List.filter_congr fun p _ => by rw [decide_eq_decide, remaining_pos_iff]
  have hrules : (rules.filter fun r => r.Occurs s) =
      (laterOutlines.filter fun p => (spelled p).Occurs s).map spelled := by
    rw [← map_spelled_outlines, List.filter_map, ← guardOutlines_append, List.filter_append]
    exact congrArg (List.map spelled) (congrArg (· ++ _) hguards)
  rw [run_rules_of_unguarded h, laterOutlines_tracks.applied_run, hlater, hrules, List.map_map]
  rfl

/-- Every rule of which a candidate occurs in the text fires, and where no editor guard occurs in
it, no other rule does. -/
theorem occurring_rules_fire (c : Text) :
    (∀ r ∈ rules, r.Occurs c → r.name ∈ (Pass.run rules c).applied) ∧
      (¬ macGuard <:+: c → ¬ windowsGuard <:+: c →
        (Pass.run rules c).applied = (rules.filter fun r => r.Occurs c).map Rule.name) :=
  ⟨fun _ hr ho => name_mem_applied_of_occurs hr ho,
    fun hmac hwin => applied_run_of_unguarded (unguarded_iff.2 ⟨hmac, hwin⟩)⟩

/-- The editor list between two guards, and by itself. -/
theorem occurring_rules_fire_editorList :
    let list := editorList ++ editorListGuard
    unguardEditorList.name ∈ (Pass.run rules (macGuard ++ list ++ windowsGuard)).applied ∧
      ¬ macGuard <:+: list ∧ ¬ windowsGuard <:+: list ∧
      (Pass.run rules list).applied = ["editor-list-guard"] := by
  intro list
  have hmac : ¬ macGuard <:+: list := by decide +kernel
  have hwin : ¬ windowsGuard <:+: list := by decide +kernel
  have hoccurs : unguardEditorList.Occurs (macGuard ++ list ++ windowsGuard) :=
    ⟨list, List.mem_singleton.2 rfl, macGuard, windowsGuard, rfl⟩
  refine ⟨(occurring_rules_fire _).1 _ (by simp [rules]) hoccurs, hmac, hwin, ?_⟩
  rw [(occurring_rules_fire list).2 hmac hwin]
  decide +kernel

/-- Removing a guard may join the halves of a candidate that did not occur before. -/
example :
    let c := editorList ++ macGuard ++ editorListGuard
    ¬ unguardEditorList.Occurs c ∧ unguardEditorList.name ∈ (Pass.run rules c).applied := by
  decide +kernel

end BundlePatch.Catalogue
