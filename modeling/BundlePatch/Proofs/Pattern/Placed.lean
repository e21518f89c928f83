import BundlePatch.Proofs.Pattern.Seam

/-!
# Patterns in their place

`Placed E g s`: each occurrence of `g` in `s` comes first or right after an element of `E`. If `g`
has no such element but at its end, then it cannot span a seam after one
(`not_spans_of_endsIn`), and it stays in its place when something else is replaced by what it
cannot overlap and what ends in `E` (`Placed.replace_of_apart`), or when something in its place is
removed (`Placed.remove`).
-/

namespace BundlePatch.Pattern

universe u

variable {α : Type u}

/-- The list is empty or its last element is one of `E`. -/
def EndsIn (E b : List α) : Prop := ∀ x ∈ b.getLast?, x ∈ E

/-- Each occurrence of `g` comes first or right after an element of `E`. -/
def Placed (E g s : List α) : Prop := ∀ b a, s = b ++ g ++ a → EndsIn E b

theorem placed_iff {E g s : List α} :
    (∀ n < s.length + 1, g <+: s.drop n → EndsIn E (s.take n)) ↔ Placed E g s := by
  constructor
  · rintro h b a rfl
    have hb := h b.length (by simp only [List.length_append]; omega)
    simpa using hb
  · rintro h n - ⟨a, ha⟩
    refine h (s.take n) a ?_
    rw [List.append_assoc, ha, List.take_append_drop]

instance [DecidableEq α] (E b : List α) : Decidable (EndsIn E b) :=
  inferInstanceAs (Decidable (∀ x ∈ b.getLast?, x ∈ E))

instance [DecidableEq α] (E g s : List α) : Decidable (Placed E g s) :=
  decidable_of_iff _ placed_iff

variable {E g b a m : List α}

theorem endsIn_append_iff (hm : m ≠ []) : EndsIn E (b ++ m) ↔ EndsIn E m := by
  simp only [EndsIn, List.getLast?_append_of_ne_nil b hm]

/-- A pattern with no element of `E` but its last does not go on after one. -/
theorem not_spans_of_endsIn (hg : ∀ c ∈ g.dropLast, c ∉ E) (hb : EndsIn E b) : ¬ Spans g b a := by
  rintro ⟨x, y, hx, hy, rfl, ⟨u, rfl⟩, -⟩
  rw [endsIn_append_iff hx] at hb
  have hlast : x.getLast hx ∈ E := hb _ (List.getLast?_eq_some_getLast hx)
  refine hg _ ?_ hlast
  rw [List.dropLast_append_of_ne_nil hy]
  exact List.mem_append_left _ (List.getLast_mem hx)

/-- What stands on one side of `r` was in its place before `r` was put there. -/
theorem Placed.replace {k r : List α} (h : Placed E g (b ++ k ++ a)) (hr : EndsIn E (b ++ r))
    (hg : ∀ b' a', b ++ r ++ a = b' ++ g ++ a' →
      (∃ m, b = b' ++ g ++ m) ∨ ∃ m, b' = b ++ r ++ m ∧ a = m ++ g ++ a') :
    Placed E g (b ++ r ++ a) := by
  intro b' a' e
  rcases hg b' a' e with ⟨m, rfl⟩ | ⟨m, rfl, rfl⟩
  · exact h b' (m ++ k ++ a) (by simp)
  · by_cases hm : m = []
    · simpa [hm] using hr
    · have hm' := h (b ++ k ++ m) a' (by simp)
      rwa [endsIn_append_iff hm] at hm' ⊢

theorem Placed.replace_of_apart {k r : List α} (h : Placed E g (b ++ k ++ a)) (hr0 : r ≠ [])
    (hr : EndsIn E r) (hg : Apart g r) : Placed E g (b ++ r ++ a) := by
  refine h.replace ((endsIn_append_iff hr0).2 hr) fun b' a' e => ?_
  rcases hg.places hr0 e.symm with ⟨m, hb, -⟩ | ⟨m, hb', ha⟩
  · exact .inl ⟨m, hb⟩
  · exact .inr ⟨m, hb', ha⟩

theorem Placed.remove {k : List α} (h : Placed E g (b ++ k ++ a)) (hb : EndsIn E b)
    (hg : ∀ c ∈ g.dropLast, c ∉ E) : Placed E g (b ++ a) := by
  have hnil : b ++ a = b ++ [] ++ a := by simp
  rw [hnil]
  refine h.replace (by simpa using hb) fun b' a' e => ?_
  have hseam : ¬ Spans g b a := not_spans_of_endsIn hg hb
  rcases places_of_not_spans hseam (hnil.trans e) with ⟨m, hb, -⟩ | ⟨m, hb', ha⟩
  · exact .inl ⟨m, hb⟩
  · exact .inr ⟨m, by simpa using hb', ha⟩

end BundlePatch.Pattern
