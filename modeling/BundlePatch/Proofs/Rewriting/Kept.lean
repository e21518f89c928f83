import BundlePatch.Proofs.Rewriting.Counting

/-!
# What passes keep

Elements that no rule looks for or inserts are neither added nor removed, and stay in their
order (`Pass.filter_run`).
-/

namespace BundlePatch

universe u

variable {α : Type u} {p : α → Bool}

theorem Rule.Edit.filter_eq {r : Rule α} {s t : List α} (hst : r.Edit s t)
    (h : ∀ x ∈ r.patterns, ∀ a ∈ x, p a = false) : t.filter p = s.filter p := by
  obtain ⟨b, a, hk⟩ := hst
  have gone : ∀ x ∈ r.patterns, x.filter p = [] := by
    intro x hx
    apply List.filter_eq_nil_iff.2
    intro a ha
    simp [h x hx a ha]
  simp only [List.filter_append, gone _ List.mem_cons_self, gone _ (List.mem_cons_of_mem _ hk)]

theorem Pass.filter_run [BEq α] [LawfulBEq α] {rs : List (Rule α)}
    (h : ∀ r ∈ rs, ∀ x ∈ r.patterns, ∀ a ∈ x, p a = false) (s : List α) :
    (Pass.run rs s).content.filter p = s.filter p :=
  (Pass.edits_run (List.Subset.refl rs) s).congr fun r hr _ _ hst => hst.filter_eq (h r hr)

end BundlePatch
