import BundlePatch.Proofs.Pattern.Seam
import BundlePatch.Proofs.Rewriting.Edits

/-!
# What a rule cannot touch

`r.Foreign x`: no candidate of `r` can overlap `x`. Whatever else stands in the place of something
foreign, the rule finds the same candidate at the same place (`Rule.Foreign.site_after`,
`Rule.Foreign.site_before`), and its edits lose no occurrence of something foreign
(`Rule.Foreign.starts_add_le`).
-/

namespace BundlePatch

open Pattern

universe u

variable {α : Type u}

namespace Rule

/-- No candidate of the rule overlaps `x`. -/
def Foreign (r : Rule α) (x : List α) : Prop := x ≠ [] ∧ ∀ k ∈ r.candidates, Apart k x

/-- A candidate stays the first one that occurs if no other comes to occur. -/
theorem Site.of_isFirst {r : Rule α} {s s' k : List α} {o o' : Occurrence α} (h : r.Site s k o)
    (hs : ∀ k' ∈ r.candidates, k' <:+: s' → k' <:+: s) (ho : Occurrence.IsFirst k s' o') :
    r.Site s' k o' := by
  obtain ⟨⟨tried, untried, hk, hn⟩, -⟩ := h
  refine ⟨⟨tried, untried, hk, fun k' hk' hin => hn k' hk' (hs k' ?_ hin)⟩, ho⟩
  rw [hk]
  exact List.mem_append_left _ hk'

/-! ## Places -/

namespace Foreign

variable {r : Rule α} {x y k b m a : List α}

theorem infix_congr (hx : r.Foreign x) (hy : r.Foreign y) (hk : k ∈ r.candidates) :
    k <:+: b ++ x ++ a ↔ k <:+: b ++ y ++ a := by
  rw [(hx.2 k hk).infix_around_iff hx.1, (hy.2 k hk).infix_around_iff hy.1]

theorem occurs_congr (hx : r.Foreign x) (hy : r.Foreign y) :
    r.Occurs (b ++ x ++ a) ↔ r.Occurs (b ++ y ++ a) :=
  exists_congr fun _ => and_congr_right fun hk => hx.infix_congr hy hk

/-- What stands after the place of a rule does not matter to it. -/
theorem site_after (hx : r.Foreign x) (hy : r.Foreign y)
    (h : r.Site (b ++ k ++ m ++ x ++ a) k ⟨b, m ++ x ++ a⟩) :
    r.Site (b ++ k ++ m ++ y ++ a) k ⟨b, m ++ y ++ a⟩ := by
  have hk : k ≠ [] := (hx.2 k h.mem).ne_nil hx.1
  refine h.of_isFirst (fun k' hk' => (hx.infix_congr hy hk').2) ?_
  rw [Occurrence.isFirst_iff hk]
  exact ⟨by simp, ((Occurrence.isFirst_iff hk).1 h.2).2⟩

/-- Nor does what stands before it. -/
theorem site_before (hx : r.Foreign x) (hy : r.Foreign y)
    (h : r.Site (b ++ x ++ m ++ k ++ a) k ⟨b ++ x ++ m, a⟩) :
    r.Site (b ++ y ++ m ++ k ++ a) k ⟨b ++ y ++ m, a⟩ := by
  have hk : k ≠ [] := (hx.2 k h.mem).ne_nil hx.1
  have hsplit (z : List α) : b ++ z ++ m ++ k ++ a = b ++ z ++ (m ++ k ++ a) := by simp
  have hfirst : ¬ k <:+: b ++ x ++ (m ++ k.dropLast) := by
    simpa using ((Occurrence.isFirst_iff hk).1 h.2).2
  refine h.of_isFirst (fun k' hk' => ?_) ?_
  · rw [hsplit, hsplit]
    exact (hx.infix_congr hy hk').2
  · rw [Occurrence.isFirst_iff hk]
    exact ⟨rfl, by simpa using mt (hx.infix_congr hy h.mem).2 hfirst⟩

/-! ## Occurrences -/

variable [BEq α] [LawfulBEq α]

/-- Edits lose no occurrence of what is foreign to the rule, and gain those in what they insert. -/
theorem starts_add_le (hx : r.Foreign x) {s t : List α} (hst : r.Edit s t) :
    starts [x] s + starts [x] r.replacement ≤ starts [x] t := by
  obtain ⟨b, a, hk⟩ := hst
  have h0 : [] ∉ [x] := by simpa using hx.1.symm
  have hright := starts_append_le h0 (b ++ r.replacement) a
  have hleft := starts_append_le h0 b r.replacement
  rw [starts_around_of_apart ((hx.2 _ hk).ne_nil hx.1) (by simpa using (hx.2 _ hk).symm)]
  omega

end Foreign

end Rule

end BundlePatch
