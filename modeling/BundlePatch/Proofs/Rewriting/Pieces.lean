import BundlePatch.Proofs.Rewriting.Kept
import Mathlib.Data.Finset.Card
import Mathlib.Data.Finset.Range

/-!
# The pieces that passes change

Cut a list at a separator that no rule looks for or inserts. Every edit then lies inside one of
the pieces (`Rule.Edit.differing_splitOn`), so a pass changes at most as many pieces as it
reports rules (`Pass.card_differing_run_le`).
-/

namespace BundlePatch

universe u v

/-! ## Where lists differ -/

section

variable {β : Type v} [DecidableEq β]

/-- The indices at which two lists differ. An index that only one of them has counts. -/
def differing (l m : List β) : Finset Nat :=
  {i ∈ Finset.range (max l.length m.length) | l[i]? ≠ m[i]?}

theorem mem_differing {l m : List β} {i : Nat} : i ∈ differing l m ↔ l[i]? ≠ m[i]? := by
  rw [differing, Finset.mem_filter, Finset.mem_range, and_iff_right_iff_imp]
  intro h
  by_contra hi
  rw [Nat.not_lt, max_le_iff] at hi
  rw [List.getElem?_eq_none hi.1, List.getElem?_eq_none hi.2] at h
  exact h rfl

theorem differing_self (l : List β) : differing l l = ∅ := by
  ext i
  simp [mem_differing]

theorem differing_subset_union (l m n : List β) :
    differing l n ⊆ differing l m ∪ differing m n := by
  intro i
  rw [Finset.mem_union, mem_differing, mem_differing, mem_differing, ← not_and_or]
  exact fun h e => h (e.1.trans e.2)

theorem differing_append_cons (front : List β) (p q : β) (rest : List β) :
    differing (front ++ p :: rest) (front ++ q :: rest) ⊆ {front.length} := by
  intro i
  rw [mem_differing, Finset.mem_singleton]
  contrapose
  intro hi
  rcases Nat.lt_or_gt_of_ne hi with hlt | hgt
  · rw [List.getElem?_append_left hlt, List.getElem?_append_left hlt]
  · rw [List.getElem?_append_right hgt.le, List.getElem?_append_right hgt.le]
    obtain ⟨j, hj⟩ : ∃ j, i - front.length = j + 1 := ⟨i - front.length - 1, by omega⟩
    rw [hj, List.getElem?_cons_succ, List.getElem?_cons_succ]

end

/-! ## Pieces -/

variable {α : Type u} [DecidableEq α] {sep : α}

theorem splitOn_cons_of_ne {c : α} (hc : c ≠ sep) (s : List α) :
    (c :: s).splitOn sep = (s.splitOn sep).modifyHead (c :: ·) := by
  rw [List.splitOn_cons_eq_if_modifyHead, if_neg (by simpa using hc)]

theorem splitOn_append_of_not_mem {x : List α} (hx : sep ∉ x) (a : List α) :
    (x ++ a).splitOn sep = (a.splitOn sep).modifyHead (x ++ ·) := by
  induction x with
  | nil => exact (congrFun List.modifyHead_id _).symm
  | cons c x ih =>
    rw [List.mem_cons, not_or] at hx
    rw [List.cons_append, splitOn_cons_of_ne (Ne.symm hx.1), ih hx.2, List.modifyHead_modifyHead]
    rfl

/-- What holds no separator lies inside one piece, and the other pieces do not depend on it. -/
theorem exists_splitOn_around (sep : α) (b a : List α) :
    ∃ front l f rest, ∀ x, sep ∉ x →
      (b ++ x ++ a).splitOn sep = front ++ (l ++ x ++ f) :: rest := by
  induction b with
  | nil =>
    obtain ⟨f, rest, ha⟩ := List.exists_cons_of_ne_nil (List.splitOn_ne_nil sep a)
    refine ⟨[], [], f, rest, fun x hx => ?_⟩
    rw [List.nil_append, splitOn_append_of_not_mem hx, ha]
    rfl
  | cons c b ih =>
    obtain ⟨front, l, f, rest, h⟩ := ih
    by_cases hc : c = sep
    · refine ⟨[] :: front, l, f, rest, fun x hx => ?_⟩
      rw [hc, List.cons_append, List.cons_append, List.splitOn_cons_eq_if_modifyHead,
        if_pos (beq_self_eq_true sep), h x hx]
      rfl
    -- the element goes to the first piece, which is the one with `x` if none is in front
    · cases front with
      | nil =>
        refine ⟨[], c :: l, f, rest, fun x hx => ?_⟩
        rw [List.cons_append, List.cons_append, splitOn_cons_of_ne hc, h x hx]
        rfl
      | cons p front =>
        refine ⟨(c :: p) :: front, l, f, rest, fun x hx => ?_⟩
        rw [List.cons_append, List.cons_append, splitOn_cons_of_ne hc, h x hx]
        rfl

/-! ## Edits and passes -/

/-- An edit changes at most one piece. -/
theorem Rule.Edit.differing_splitOn {r : Rule α} {s t : List α} (hst : r.Edit s t)
    (h : ∀ x ∈ r.patterns, sep ∉ x) : ∃ i, differing (s.splitOn sep) (t.splitOn sep) ⊆ {i} := by
  obtain ⟨b, a, hk⟩ := hst
  obtain ⟨front, l, f, rest, haround⟩ := exists_splitOn_around sep b a
  refine ⟨front.length, ?_⟩
  rw [haround _ (h _ List.mem_cons_self), haround _ (h _ (List.mem_cons_of_mem _ hk))]
  exact differing_append_cons front _ _ rest

theorem Edits.card_differing_le {rules : List (Rule α)} {n : Nat} {s t : List α}
    (he : Edits rules n s t) (h : ∀ r ∈ rules, ∀ x ∈ r.patterns, sep ∉ x) :
    (differing (s.splitOn sep) (t.splitOn sep)).card ≤ n := by
  induction he with
  | refl s => rw [differing_self, Finset.card_empty]
  | @step n r s t u hr hst _ ih =>
    obtain ⟨i, hi⟩ := hst.differing_splitOn (h r hr)
    have hone : (differing (s.splitOn sep) (t.splitOn sep)).card ≤ 1 :=
      (Finset.card_le_card hi).trans_eq (Finset.card_singleton i)
    calc (differing (s.splitOn sep) (u.splitOn sep)).card
      _ ≤ (differing (s.splitOn sep) (t.splitOn sep) ∪
            differing (t.splitOn sep) (u.splitOn sep)).card :=
          Finset.card_le_card (differing_subset_union _ _ _)
      _ ≤ (differing (s.splitOn sep) (t.splitOn sep)).card +
            (differing (t.splitOn sep) (u.splitOn sep)).card := Finset.card_union_le _ _
      _ ≤ n + 1 := by omega

theorem Pass.card_differing_run_le {rs : List (Rule α)}
    (h : ∀ r ∈ rs, ∀ x ∈ r.patterns, sep ∉ x) (s : List α) :
    (differing (s.splitOn sep) ((Pass.run rs s).content.splitOn sep)).card ≤
      (Pass.run rs s).applied.length :=
  (Pass.edits_run (List.Subset.refl rs) s).card_differing_le h

end BundlePatch
