import BundlePatch.Proofs.Rewriting.Edits

/-!
# Counts that passes run down

`Drains r others I count`: as long as `I` holds, which every edit keeps, `count` is the number of
edits that are left for the rule `r`, and the edits of the other rules leave it as it is. Each pass
then takes one away (`Drains.count_run`), until there are none (`Drains.count_through`).
-/

namespace BundlePatch

universe u

variable {α : Type u}

/-- Under `I`, `count` is the number of edits that are left for `r`, whatever the others do. -/
structure Drains (r : Rule α) (others : List (Rule α)) (I : List α → Prop)
    (count : List α → Nat) : Prop where
  pos_iff : ∀ s, 0 < count s ↔ r.Occurs s
  own : ∀ s t, r.Edit s t → I s → I t ∧ count t + 1 = count s
  other : ∀ q ∈ others, ∀ s t, q.Edit s t → I s → I t ∧ count t = count s

namespace Drains

variable {rs before after : List (Rule α)} {r : Rule α} {I : List α → Prop}
  {count : List α → Nat} {s : List α}

theorem mono {others : List (Rule α)} (h : Drains r others I count) (hrs : rs ⊆ others) :
    Drains r rs I count where
  pos_iff := h.pos_iff
  own := h.own
  other := fun q hq => h.other q (hrs hq)

variable [BEq α] [LawfulBEq α]

/-- The other rules leave the count as it is. -/
theorem count_run_others (h : Drains r rs I count) (hs : I s) :
    I (Pass.run rs s).content ∧ count (Pass.run rs s).content = count s := by
  refine (Pass.edits_run (List.Subset.refl rs) s).preserves
    (P := fun u => I u ∧ count u = count s) (fun q hq u v huv hu => ?_) ⟨hs, rfl⟩
  obtain ⟨hi, hc⟩ := h.other q hq u v huv hu.1
  exact ⟨hi, hc.trans hu.2⟩

/-- At its turn, the rule takes one away if there is one left. -/
theorem count_run_cons (h : Drains r rs I count) (hs : I s) :
    I (Pass.run (r :: rs) s).content ∧ count (Pass.run (r :: rs) s).content = count s - 1 := by
  cases hf : r.fire? s with
  | none =>
    have h0 : ¬ 0 < count s := mt (h.pos_iff s).1 (Rule.fire?_eq_none_iff.1 hf)
    obtain ⟨hi, hc⟩ := h.count_run_others hs
    rw [Pass.run_cons_none hf]
    exact ⟨hi, by omega⟩
  | some t =>
    obtain ⟨ht, hone⟩ := h.own s t (Rule.edit_of_fire? hf) hs
    obtain ⟨hi, hc⟩ := h.count_run_others ht
    rw [Pass.run_cons_some hf]
    exact ⟨hi, by dsimp only; omega⟩

theorem count_run (h : Drains r (before ++ after) I count) (hs : I s) :
    I (Pass.run (before ++ r :: after) s).content ∧
      count (Pass.run (before ++ r :: after) s).content = count s - 1 := by
  obtain ⟨hu, hcu⟩ := (h.mono (List.subset_append_left before after)).count_run_others hs
  rw [Pass.run_append, ← hcu]
  exact (h.mono (List.subset_append_right before after)).count_run_cons hu

theorem count_through (h : Drains r (before ++ after) I count) (hs : I s) (k : Nat) :
    I (Pass.through (List.replicate k (before ++ r :: after)) s) ∧
      count (Pass.through (List.replicate k (before ++ r :: after)) s) = count s - k := by
  induction k generalizing s with
  | zero => exact ⟨hs, rfl⟩
  | succ k ih =>
    obtain ⟨ht, hct⟩ := h.count_run hs
    obtain ⟨hi, hc⟩ := ih ht
    rw [Pass.through_replicate_succ]
    exact ⟨hi, by omega⟩

end Drains

end BundlePatch
