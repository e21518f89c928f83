import BundlePatch.Proofs.Rewriting.Edits

/-!
# Passes come to an end

If every edit lowers a measure by `d` or more, then so does every reported rule of a
series of passes (`Pass.appliedCount_le`), and a series of passes with one list of rules
that reports few of them has a pass in it that reports none (`Pass.exists_settled`).
-/

namespace BundlePatch

universe u

variable {α : Type u}

theorem Edits.measure_le {rules : List (Rule α)} {μ : List α → Nat} {d n : Nat} {s t : List α}
    (h : ∀ r ∈ rules, ∀ s t, r.Edit s t → μ t + d ≤ μ s) (he : Edits rules n s t) :
    μ t + n * d ≤ μ s := by
  induction he with
  | refl s => omega
  | step hr hst _ ih =>
    have hd := h _ hr _ _ hst
    rw [Nat.succ_mul]
    omega

variable [BEq α] [LawfulBEq α]

namespace Pass

theorem appliedCount_le {rules : List (Rule α)} {μ : List α → Nat} {d : Nat}
    (h : ∀ r ∈ rules, ∀ s t, r.Edit s t → μ t + d ≤ μ s) {calls : List (List (Rule α))}
    (hc : ∀ rs ∈ calls, rs ⊆ rules) (s : List α) : appliedCount calls s * d ≤ μ s := by
  have := (edits_through hc s).measure_le h
  omega

theorem exists_settled {rs : List (Rule α)} {n : Nat} {s : List α}
    (h : appliedCount (List.replicate (n + 1) rs) s ≤ n) :
    ∃ m ≤ n, run rs (through (List.replicate m rs) s) =
      ⟨through (List.replicate m rs) s, []⟩ := by
  induction n generalizing s with
  | zero =>
    have h0 : (run rs s).applied = [] := by
      rw [List.replicate_succ, appliedCount_cons] at h
      exact List.eq_nil_of_length_eq_zero (by omega)
    exact ⟨0, Nat.le_refl 0, run_eq_self_iff.2 (applied_eq_nil_iff.1 h0)⟩
  | succ n ih =>
    by_cases h0 : (run rs s).applied = []
    · exact ⟨0, Nat.zero_le _, run_eq_self_iff.2 (applied_eq_nil_iff.1 h0)⟩
    · -- the first pass reports a rule, so the others report one less
      have hpos : 0 < (run rs s).applied.length := List.length_pos_iff.2 h0
      rw [List.replicate_succ, appliedCount_cons] at h
      obtain ⟨m, hm, hrun⟩ := ih (s := (run rs s).content) (by omega)
      exact ⟨m + 1, Nat.succ_le_succ hm, hrun⟩

end Pass

end BundlePatch
