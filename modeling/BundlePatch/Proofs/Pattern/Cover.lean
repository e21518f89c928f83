import BundlePatch.Proofs.Pattern.Starts

/-!
# The part of a list that blocks cover

Occurrences of `Blocks` never overlap, so those in a list `s` cover `covered B s` of its
elements, and at most all of them (`covered_le_length`). What they leave is
`uncovered B s`. A pattern that is apart from the blocks counts in full
(`uncovered_around_of_apart`), a block does not count (`uncovered_around_self`), and no
list counts for more than its length (`uncovered_around_le`).
-/

namespace BundlePatch.Pattern

universe u

variable {α : Type u}

variable [BEq α]

/-- The number of elements that stand in blocks. -/
def covered (B : Blocks α) (s : List α) : Nat := tally (valueAt List.length B.patterns) s

/-- The number of elements that stand outside of blocks. -/
def uncovered (B : Blocks α) (s : List α) : Nat := s.length - covered B s

theorem uncovered_le_length {B : Blocks α} (s : List α) : uncovered B s ≤ s.length :=
  Nat.sub_le _ _

variable [LawfulBEq α] {B : Blocks α}

theorem valueAt_block {t x : List α} (hx : x ∈ B.patterns) (hp : x <+: t) :
    valueAt List.length B.patterns t = x.length := by
  rw [valueAt, B.find?_begins hx hp]

theorem covered_nil : covered B [] = 0 := by
  rw [covered, tally_nil, valueAt_nil B.not_mem_nil]

theorem covered_around_of_apart {x : List α} (hx : x ≠ []) (h : ∀ y ∈ B.patterns, Apart y x)
    (b a : List α) : covered B (b ++ x ++ a) = covered B b + covered B a :=
  tally_valueAt_around_of_apart hx h b a

theorem covered_around_self {x : List α} (hx : x ∈ B.patterns) (b a : List α) :
    covered B (b ++ x ++ a) = covered B b + (x.length + covered B a) := by
  unfold covered
  rw [tally_valueAt_around B.not_mem_nil (B.ne_nil x hx) (fun y hy => B.clear y hy x hx),
    valueAt_block hx (List.prefix_append x a)]

/-- Putting lists together uncovers nothing. -/
theorem covered_append_le (s t : List α) : covered B s + covered B t ≤ covered B (s ++ t) := by
  refine tally_append_le (valueAt_nil B.not_mem_nil) (fun u => ?_) s
  by_cases hu : ∃ x ∈ B.patterns, x <+: u
  · obtain ⟨x, hx, hp⟩ := hu
    rw [valueAt_block hx hp, valueAt_block hx (hp.trans (List.prefix_append u t))]
  · rw [valueAt_eq_zero fun x hx hp => hu ⟨x, hx, hp⟩]
    exact Nat.zero_le _

theorem covered_le_length (s : List α) : covered B s ≤ s.length := by
  generalize hn : s.length = n
  induction n using Nat.strongRecOn generalizing s with
  | ind n ih =>
    by_cases hs : ∃ x ∈ B.patterns, x <+: s
    · -- a block begins here: it is counted once, and the rest is what follows it
      obtain ⟨x, hx, a, rfl⟩ := hs
      have hpos : 0 < x.length := List.length_pos_of_ne_nil (B.ne_nil x hx)
      have hsplit : covered B (x ++ a) = x.length + covered B a := by
        simpa [covered_nil] using covered_around_self hx [] a
      rw [List.length_append] at hn
      have ha : covered B a ≤ a.length := ih a.length (by omega) a rfl
      omega
    · have h0 : valueAt List.length B.patterns s = 0 :=
        valueAt_eq_zero fun x hx hp => hs ⟨x, hx, hp⟩
      cases s with
      | nil => rw [covered_nil]; exact Nat.zero_le n
      | cons c s =>
        rw [List.length_cons] at hn
        have hs : covered B s ≤ s.length := ih s.length (by omega) s rfl
        unfold covered at hs ⊢
        rw [tally_cons, h0]
        omega

/-! ## The uncovered part -/

theorem uncovered_append_le (s t : List α) :
    uncovered B (s ++ t) ≤ uncovered B s + uncovered B t := by
  have h := covered_append_le (B := B) s t
  have hs := covered_le_length (B := B) s
  have ht := covered_le_length (B := B) t
  unfold uncovered
  rw [List.length_append]
  omega

theorem uncovered_around_le (b x a : List α) :
    uncovered B (b ++ x ++ a) ≤ uncovered B b + x.length + uncovered B a := by
  have hl := uncovered_append_le (B := B) (b ++ x) a
  have hr := uncovered_append_le (B := B) b x
  have hx := uncovered_le_length (B := B) x
  omega

theorem uncovered_around_of_apart {x : List α} (hx : x ≠ []) (h : ∀ y ∈ B.patterns, Apart y x)
    (b a : List α) : uncovered B (b ++ x ++ a) = uncovered B b + x.length + uncovered B a := by
  have hb := covered_le_length (B := B) b
  have ha := covered_le_length (B := B) a
  unfold uncovered
  rw [covered_around_of_apart hx h, List.length_append, List.length_append]
  omega

theorem uncovered_around_self {x : List α} (hx : x ∈ B.patterns) (b a : List α) :
    uncovered B (b ++ x ++ a) = uncovered B b + uncovered B a := by
  have hb := covered_le_length (B := B) b
  have ha := covered_le_length (B := B) a
  unfold uncovered
  rw [covered_around_self hx, List.length_append, List.length_append]
  omega

end BundlePatch.Pattern
