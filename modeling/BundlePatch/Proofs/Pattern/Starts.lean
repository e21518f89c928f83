import BundlePatch.Proofs.Pattern.Marks
import Mathlib.Algebra.GroupWithZero.Nat

/-!
# Counting occurrences

`starts ks s` is the number of positions of `s` at which one of the patterns `ks`
begins. It is a `tally`, a sum over the positions of the list, of the `valueAt` each of
them, which is one if a pattern begins there; such a sum is one over the marks
(`tally_valueAt_eq_sum`). Around a pattern that is apart from those with a value, it splits
into the part before and the part after (`tally_valueAt_around_of_apart`); around one of
those that `starts` counts, which is clear of the others, one more begins
(`starts_around_of_mem`).
-/

namespace BundlePatch.Pattern

universe u

variable {α : Type u}

/-! ## Sums over positions -/

/-- The sum of `w` over what stands from each position of the list on, its end included. -/
def tally (w : List α → Nat) : List α → Nat
  | [] => w []
  | a :: s => w (a :: s) + tally w s

theorem tally_nil (w : List α → Nat) : tally w [] = w [] := rfl

theorem tally_cons (w : List α → Nat) (a : α) (s : List α) :
    tally w (a :: s) = w (a :: s) + tally w s := rfl

theorem tally_pos_iff {w : List α → Nat} {s : List α} : 0 < tally w s ↔ ∃ t, t <:+ s ∧ 0 < w t := by
  induction s with
  | nil => simp [tally_nil]
  | cons a s ih =>
    rw [tally_cons, Nat.add_pos_iff_pos_or_pos, ih]
    simp only [List.suffix_cons_iff, or_and_right, exists_or, exists_eq_left]

theorem tally_eq_length_gather (w : List α → Nat) (s : List α) :
    tally w s = (gather (fun t => List.replicate (w t) ()) s).length := by
  induction s with
  | nil => rw [tally_nil, gather_nil, List.length_replicate]
  | cons a s ih => rw [tally_cons, gather_cons, List.length_append, List.length_replicate, ih]

/-- What follows the list does not matter, if it changes nothing at the positions before it. -/
theorem tally_append {w : List α → Nat} {y b : List α} (h0 : w [] = 0)
    (h : ∀ u, u ≠ [] → u <:+ b → w (u ++ y) = w u) :
    tally w (b ++ y) = tally w b + tally w y := by
  simp only [tally_eq_length_gather]
  rw [gather_append (by rw [h0]; rfl) (fun u hu hs => by rw [h u hu hs]), List.length_append]

/-- Nothing is lost where what follows the list lowers no weight before it. -/
theorem tally_append_le {w : List α → Nat} {y : List α} (h0 : w [] = 0)
    (h : ∀ u, w u ≤ w (u ++ y)) (b : List α) : tally w b + tally w y ≤ tally w (b ++ y) := by
  induction b with
  | nil => rw [tally_nil, h0, List.nil_append, Nat.zero_add]
  | cons c b ih =>
    have hc : w (c :: b) ≤ w (c :: (b ++ y)) := h (c :: b)
    rw [List.cons_append, tally_cons, tally_cons]
    omega

theorem tally_append_of_zero {w : List α → Nat} {x a : List α}
    (h : ∀ u, u ≠ [] → u <:+ x → w (u ++ a) = 0) : tally w (x ++ a) = tally w a := by
  simp only [tally_eq_length_gather]
  rw [gather_append_of_nil fun u hu hs => by rw [h u hu hs]; rfl]

/-- The sum around `x`, if `x` neither changes the weights before it nor adds to the sum after its
first element. -/
theorem tally_around {w : List α → Nat} {x a : List α} (h0 : w [] = 0) (hx : x ≠ [])
    (before : ∀ b, b ≠ [] → w (b ++ (x ++ a)) = w b)
    (inside : ∀ u, u ≠ [] → u <:+ x.tail → w (u ++ a) = 0) (b : List α) :
    tally w (b ++ (x ++ a)) = tally w b + (w (x ++ a) + tally w a) := by
  simp only [tally_eq_length_gather]
  rw [gather_around (by rw [h0]; rfl) hx (fun b hb => by rw [before b hb])
    (fun u hu hs => by rw [inside u hu hs]; rfl), List.length_append, List.length_append,
    List.length_replicate]

/-! ## Values of patterns -/

section Values

variable [BEq α]

/-- The value of the first pattern in the list that begins here, if one does. -/
def valueAt (v : List α → Nat) (ks : List (List α)) (t : List α) : Nat :=
  match ks.find? (·.isPrefixOf t) with
  | some k => v k
  | none => 0

theorem valueAt_eq_sum (v : List α → Nat) (ks : List (List α)) (t : List α) :
    valueAt v ks t = (((ks.find? (·.isPrefixOf t)).toList).map v).sum := by
  unfold valueAt
  cases ks.find? (·.isPrefixOf t) <;> simp

theorem tally_valueAt_eq_sum (v : List α → Nat) (ks : List (List α)) (s : List α) :
    tally (valueAt v ks) s = ((marks ks s).map v).sum := by
  rw [marks_eq_gather]
  induction s with
  | nil => rw [tally_nil, gather_nil, valueAt_eq_sum]
  | cons a s ih =>
    rw [tally_cons, gather_cons, List.map_append, List.sum_append, ih, valueAt_eq_sum]

variable [LawfulBEq α] {v : List α → Nat} {ks : List (List α)}

theorem valueAt_eq_zero {t : List α} (h : ∀ k ∈ ks, ¬ k <+: t) : valueAt v ks t = 0 := by
  unfold valueAt
  rw [find?_begins_eq_none h]

theorem exists_valueAt_eq {t k : List α} (hk : k ∈ ks) (hp : k <+: t) :
    ∃ k' ∈ ks, k' <+: t ∧ valueAt v ks t = v k' := by
  unfold valueAt
  split
  · rename_i k' hf
    exact ⟨k', List.mem_of_find?_eq_some hf, by simpa using List.find?_some hf, rfl⟩
  · rename_i hn
    exact absurd (List.isPrefixOf_iff_prefix.2 hp) (List.find?_eq_none.1 hn k hk)

theorem valueAt_nil (h : [] ∉ ks) : valueAt v ks [] = 0 :=
  valueAt_eq_zero fun _ hk hp => h (List.prefix_nil.1 hp ▸ hk)

/-- Around a pattern that is clear of those with a value, only the place where it begins itself is
left to look at. -/
theorem tally_valueAt_around {x : List α} (h0 : [] ∉ ks) (hx : x ≠ [])
    (h : ∀ k ∈ ks, Clear k x) (b a : List α) :
    tally (valueAt v ks) (b ++ x ++ a) =
      tally (valueAt v ks) b + (valueAt v ks (x ++ a) + tally (valueAt v ks) a) := by
  simp only [tally_valueAt_eq_sum, valueAt_eq_sum, marks_around h0 hx h, List.map_append,
    List.sum_append]

theorem tally_valueAt_around_of_apart {x : List α} (hx : x ≠ []) (h : ∀ k ∈ ks, Apart k x)
    (b a : List α) :
    tally (valueAt v ks) (b ++ x ++ a) = tally (valueAt v ks) b + tally (valueAt v ks) a := by
  simp only [tally_valueAt_eq_sum, marks_around_of_apart hx h, List.map_append, List.sum_append]

end Values

/-! ## Positions where a pattern begins -/

section Starts

variable [BEq α]

/-- The number of positions of `s` at which one of the patterns begins. -/
def starts (ks : List (List α)) (s : List α) : Nat :=
  s.tails.countP fun t => ks.any (·.isPrefixOf t)

theorem valueAt_one (ks : List (List α)) (t : List α) :
    valueAt (fun _ => 1) ks t = if ks.any (·.isPrefixOf t) then 1 else 0 := by
  unfold valueAt
  rw [← List.isSome_find?]
  cases ks.find? (·.isPrefixOf t) <;> rfl

theorem starts_eq_tally (ks : List (List α)) (s : List α) :
    starts ks s = tally (valueAt (fun _ => 1) ks) s := by
  induction s with
  | nil => simp [starts, tally_nil, valueAt_one, List.countP_cons]
  | cons a s ih =>
    rw [tally_cons, ← ih, valueAt_one]
    simp [starts, List.countP_cons, Nat.add_comm]

variable [LawfulBEq α] {ks : List (List α)}

theorem valueAt_one_of_begins {t k : List α} (hk : k ∈ ks) (hp : k <+: t) :
    valueAt (fun _ => 1) ks t = 1 := by
  obtain ⟨k', -, -, hv⟩ := exists_valueAt_eq (v := fun _ => 1) hk hp
  exact hv

theorem starts_pos_iff {s : List α} : 0 < starts ks s ↔ ∃ k ∈ ks, k <:+: s := by
  have pos_iff (t : List α) : 0 < valueAt (fun _ => 1) ks t ↔ ∃ k ∈ ks, k <+: t := by
    constructor
    · intro h
      by_contra hn
      rw [valueAt_eq_zero fun k hk hp => hn ⟨k, hk, hp⟩] at h
      exact Nat.lt_irrefl 0 h
    · rintro ⟨k, hk, hp⟩
      rw [valueAt_one_of_begins hk hp]
      exact Nat.one_pos
  rw [starts_eq_tally, tally_pos_iff]
  simp only [pos_iff, List.infix_iff_prefix_suffix]
  constructor
  · rintro ⟨t, ht, k, hk, hp⟩
    exact ⟨k, hk, t, hp, ht⟩
  · rintro ⟨k, hk, t, hp, ht⟩
    exact ⟨t, ht, k, hk, hp⟩

theorem starts_around_of_apart {x : List α} (hx : x ≠ []) (h : ∀ k ∈ ks, Apart k x)
    (b a : List α) : starts ks (b ++ x ++ a) = starts ks b + starts ks a := by
  simp only [starts_eq_tally]
  exact tally_valueAt_around_of_apart hx h b a

theorem starts_around_of_mem {x : List α} (h0 : [] ∉ ks) (hx : x ∈ ks)
    (h : ∀ k ∈ ks, Clear k x) (b a : List α) :
    starts ks (b ++ x ++ a) = starts ks b + starts ks a + 1 := by
  simp only [starts_eq_tally]
  rw [tally_valueAt_around h0 (fun e => h0 (e ▸ hx)) h,
    valueAt_one_of_begins hx (List.prefix_append x a)]
  omega

theorem count_marks {B : Blocks α} {k : List α} (hk : k ∈ B.patterns) (s : List α) :
    (marks B.patterns s).count k = starts [k] s := by
  rw [marks, starts, List.count_filterMap]
  apply List.countP_congr
  intro t _
  simp only [List.any_cons, List.any_nil, Bool.or_false, beq_iff_eq, List.isPrefixOf_iff_prefix]
  constructor
  · intro hf
    simpa using List.find?_some hf
  · exact fun hp => B.find?_begins hk hp

end Starts

end BundlePatch.Pattern
