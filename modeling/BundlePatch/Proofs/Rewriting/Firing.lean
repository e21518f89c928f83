import BundlePatch.Rule

/-!
# The rules that fire

A rule fires in a pass if one of its candidates occurs when it is its turn (`Pass.Fires`). If
no two rules have the same name, the names that a pass reports say exactly which rules fired
(`Pass.name_mem_applied_iff`), and a rule that is not reported could as well not have been in the
list (`Pass.run_of_name_not_mem_applied`).
-/

namespace BundlePatch

universe u

variable {α : Type u} [BEq α]

/-- At the turn of the rule, one of its candidates occurs in what the rules before it left. -/
def Pass.Fires (rs : List (Rule α)) (s : List α) (r : Rule α) : Prop :=
  ∃ before after, rs = before ++ r :: after ∧ r.Occurs (Pass.run before s).content

theorem Pass.name_mem_of_mem_applied {rs : List (Rule α)} {s : List α} {n : String}
    (h : n ∈ (Pass.run rs s).applied) : n ∈ rs.map Rule.name :=
  (Pass.applied_sublist rs s).subset h

variable [LawfulBEq α]

theorem Rule.occurs_of_fire? {r : Rule α} {s t : List α} (h : r.fire? s = some t) : r.Occurs s := by
  obtain ⟨k, o, hs, -⟩ := Rule.fire?_eq_some_iff.1 h
  exact hs.occurs

namespace Pass

theorem name_mem_applied_append_iff {before after : List (Rule α)} {r : Rule α}
    (h : ((before ++ r :: after).map Rule.name).Nodup) (s : List α) :
    r.name ∈ (run (before ++ r :: after) s).applied ↔ r.Occurs (run before s).content := by
  rw [List.map_append, List.map_cons, List.nodup_append, List.nodup_cons] at h
  obtain ⟨-, ⟨hafter, -⟩, hbefore⟩ := h
  -- no other rule reports the name
  have hb : r.name ∉ (run before s).applied := fun hn =>
    hbefore _ (name_mem_of_mem_applied hn) _ List.mem_cons_self rfl
  rw [run_append, List.mem_append, or_iff_right hb]
  generalize (run before s).content = t
  cases hf : r.fire? t with
  | none =>
    rw [run_cons_none hf]
    exact iff_of_false (fun hn => hafter (name_mem_of_mem_applied hn))
      (Rule.fire?_eq_none_iff.1 hf)
  | some u =>
    rw [run_cons_some hf]
    exact iff_of_true List.mem_cons_self (Rule.occurs_of_fire? hf)

/-- A pass that does not report a rule is the pass without it. -/
theorem run_of_name_not_mem_applied {before after : List (Rule α)} {r : Rule α}
    (h : ((before ++ r :: after).map Rule.name).Nodup) {s : List α}
    (hn : r.name ∉ (run (before ++ r :: after) s).applied) :
    ¬ r.Occurs (run before s).content ∧ run (before ++ r :: after) s = run (before ++ after) s := by
  rw [name_mem_applied_append_iff h] at hn
  refine ⟨hn, ?_⟩
  rw [run_append, run_append, run_cons_none (Rule.fire?_eq_none_iff.2 hn)]

theorem name_mem_applied_iff {rs : List (Rule α)} (h : (rs.map Rule.name).Nodup) {r : Rule α}
    (hr : r ∈ rs) (s : List α) : r.name ∈ (run rs s).applied ↔ Fires rs s r := by
  constructor
  · intro hn
    obtain ⟨before, after, rfl⟩ := List.append_of_mem hr
    exact ⟨before, after, rfl, (name_mem_applied_append_iff h s).1 hn⟩
  · rintro ⟨before, after, rfl, ho⟩
    exact (name_mem_applied_append_iff h s).2 ho

theorem applied_eq_nil_iff_not_fires {rs : List (Rule α)} (h : (rs.map Rule.name).Nodup)
    (s : List α) : (run rs s).applied = [] ↔ ∀ r ∈ rs, ¬ Fires rs s r := by
  constructor
  · intro e r hr hf
    rw [← name_mem_applied_iff h hr, e] at hf
    cases hf
  · intro hn
    apply List.eq_nil_iff_forall_not_mem.2
    intro n hmem
    obtain ⟨r, hr, rfl⟩ := List.mem_map.1 (name_mem_of_mem_applied hmem)
    exact hn r hr ((name_mem_applied_iff h hr s).1 hmem)

end Pass

end BundlePatch
