import BundlePatch.Proofs.Pattern.Starts

/-!
# Seams

`Spans k b a`: where `a` is put after `b`, the pattern `k` stands across the seam. Putting lists
together loses no place where a pattern begins (`starts_append_le`). It brings none about if the
pattern does not span the seam (`starts_append_of_not_spans`), and at most one if no two
occurrences of the pattern overlap (`starts_append_le_succ`).
-/

namespace BundlePatch.Pattern

universe u

variable {α : Type u}

/-- An occurrence of `k` in `b ++ a` begins in `b` and ends in `a`. -/
def Spans (k b a : List α) : Prop := ∃ x y, x ≠ [] ∧ y ≠ [] ∧ k = x ++ y ∧ x <:+ b ∧ y <+: a

/-- What does not span the seam stands on one side of it. -/
theorem places_of_not_spans {k b a b' a' : List α} (h : ¬ Spans k b a)
    (e : b ++ a = b' ++ k ++ a') :
    (∃ m, b = b' ++ k ++ m ∧ a' = m ++ a) ∨ ∃ m, b' = b ++ m ∧ a = m ++ k ++ a' := by
  rw [List.append_assoc] at e
  rcases List.append_eq_append_iff.1 e with ⟨m, rfl, rfl⟩ | ⟨x, rfl, hx⟩
  · exact .inr ⟨m, rfl, by simp⟩
  · rcases List.append_eq_append_iff.1 hx with ⟨m, rfl, rfl⟩ | ⟨y, rfl, rfl⟩
    · exact .inl ⟨m, by simp, rfl⟩
    · -- the pattern begins in `b` with `x` and goes on in `a` with `y`
      by_cases hx0 : x = []
      · exact .inr ⟨[], by simp [hx0], by simp [hx0]⟩
      · by_cases hy0 : y = []
        · exact .inl ⟨[], by simp [hy0], by simp [hy0]⟩
        · exact absurd ⟨x, y, hx0, hy0, rfl, List.suffix_append b' x, List.prefix_append y a'⟩ h

section Starts

variable [BEq α] [LawfulBEq α]

theorem valueAt_one_le_append (ks : List (List α)) (u y : List α) :
    valueAt (fun _ => 1) ks u ≤ valueAt (fun _ => 1) ks (u ++ y) := by
  by_cases hu : ∃ k ∈ ks, k <+: u
  · obtain ⟨k, hk, hp⟩ := hu
    rw [valueAt_one_of_begins hk hp, valueAt_one_of_begins hk (hp.trans (List.prefix_append u y))]
  · rw [valueAt_eq_zero fun k hk hp => hu ⟨k, hk, hp⟩]
    exact Nat.zero_le _

theorem starts_append_le {ks : List (List α)} (h0 : [] ∉ ks) (b a : List α) :
    starts ks b + starts ks a ≤ starts ks (b ++ a) := by
  simp only [starts_eq_tally]
  exact tally_append_le (valueAt_nil h0) (fun u => valueAt_one_le_append ks u a) b

theorem starts_append_of_not_spans {k b a : List α} (hk : k ≠ []) (h : ¬ Spans k b a) :
    starts [k] (b ++ a) = starts [k] b + starts [k] a := by
  simp only [starts_eq_tally]
  refine tally_append (valueAt_nil (by simpa using hk.symm)) fun u hu hs => ?_
  unfold valueAt
  rw [find?_begins_congr]
  intro x hx
  obtain rfl := List.mem_singleton.1 hx
  refine ⟨fun hp => ?_, fun hp => hp.trans (List.prefix_append u a)⟩
  rcases prefix_or_reaches hp with hp | ⟨y, hy, rfl, ha⟩
  · exact hp
  · exact absurd ⟨u, y, hu, hy, rfl, hs, ha⟩ h

theorem starts_append_le_succ {k b a : List α} (hk : k ≠ []) (hc : Clear k k) :
    starts [k] (b ++ a) ≤ starts [k] b + starts [k] a + 1 := by
  by_cases h : Spans k b a
  · obtain ⟨x, y, -, -, rfl, ⟨u, rfl⟩, ⟨v, rfl⟩⟩ := h
    have h0 : [] ∉ [x ++ y] := by simpa using hk.symm
    have hsplit : (u ++ x) ++ (y ++ v) = u ++ (x ++ y) ++ v := by simp
    rw [hsplit, starts_around_of_mem h0 List.mem_cons_self (by simpa using hc)]
    have hu := starts_append_le h0 u x
    have hv := starts_append_le h0 y v
    omega
  · rw [starts_append_of_not_spans hk h]
    omega

/-- Where neither part holds the pattern, it can only stand across the seam. -/
theorem starts_append_le_one {k b a : List α} (hk : k ≠ []) (hc : Clear k k) (hb : ¬ k <:+: b)
    (ha : ¬ k <:+: a) : starts [k] (b ++ a) ≤ 1 := by
  have hnone {s : List α} (hs : ¬ k <:+: s) : starts [k] s = 0 :=
    Nat.eq_zero_of_not_pos fun hpos => hs (by simpa using starts_pos_iff.1 hpos)
  have h := starts_append_le_succ (b := b) (a := a) hk hc
  rwa [hnone hb, hnone ha] at h

end Starts

end BundlePatch.Pattern
