import BundlePatch.Proofs.Rewriting.Edits

/-!
# Counts that passes raise

If no edit lowers a count, and those of the rules of one name raise it, then a series of passes
raises it at least as often as it reports that name (`Pass.count_add_le_through`).
-/

namespace BundlePatch

universe u

variable {α : Type u} [BEq α] [LawfulBEq α]

namespace Pass

variable {rules : List (Rule α)} {count : List α → Nat} {n : String}

theorem count_add_le_run
    (h : ∀ r ∈ rules, ∀ s t, r.Edit s t → count s + (if r.name = n then 1 else 0) ≤ count t)
    {rs : List (Rule α)} (hrs : rs ⊆ rules) (s : List α) :
    count s + (run rs s).applied.count n ≤ count (run rs s).content := by
  induction rs generalizing s with
  | nil => exact Nat.le_refl _
  | cons r rs ih =>
    obtain ⟨hr, hrs⟩ := List.cons_subset.1 hrs
    cases hf : r.fire? s with
    | none => rw [run_cons_none hf]; exact ih hrs s
    | some t =>
      have hst := h r hr s t (Rule.edit_of_fire? hf)
      have ht := ih hrs t
      rw [run_cons_some hf, List.count_cons]
      simp only [beq_iff_eq]
      omega

theorem count_add_le_through
    (h : ∀ r ∈ rules, ∀ s t, r.Edit s t → count s + (if r.name = n then 1 else 0) ≤ count t)
    {calls : List (List (Rule α))} (hc : ∀ rs ∈ calls, rs ⊆ rules) (s : List α) :
    count s + (reported calls s).count n ≤ count (through calls s) := by
  induction calls generalizing s with
  | nil => exact Nat.le_refl _
  | cons rs calls ih =>
    have hrun := count_add_le_run h (hc rs List.mem_cons_self) s
    have hrest := ih (fun rs hrs => hc rs (List.mem_cons_of_mem _ hrs)) (run rs s).content
    rw [reported, List.count_append, through]
    omega

end Pass

end BundlePatch
