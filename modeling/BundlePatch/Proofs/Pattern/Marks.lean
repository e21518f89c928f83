import BundlePatch.Proofs.Pattern.Apart
import Mathlib.Data.List.Basic
import Mathlib.Data.List.Find

/-!
# Marks

`marks ks s` lists the patterns of `ks` that begin in `s`, from left to right. Around a pattern
that is apart from all of `ks`, the marks are those before it and those after it
(`marks_around_of_apart`). Of `Blocks`, no two occurrences overlap, so around one of them it is
the only mark in between (`marks_around_block`), and a block is among the marks exactly if it
occurs (`mem_marks_iff`).
-/

namespace BundlePatch.Pattern

universe u v

variable {α : Type u}

/-! ## Lists over positions -/

section Gather

variable {β : Type v} {f : List α → List β}

/-- What `f` yields for what stands from each position of the list on, its end included, from left
to right. -/
def gather (f : List α → List β) (s : List α) : List β := s.tails.flatMap f

theorem gather_nil (f : List α → List β) : gather f [] = f [] := by
  simp [gather]

theorem gather_cons (f : List α → List β) (a : α) (s : List α) :
    gather f (a :: s) = f (a :: s) ++ gather f s := by
  simp [gather]

/-- What follows the list does not matter, if it changes nothing at the positions before it. -/
theorem gather_append {y b : List α} (h0 : f [] = [])
    (h : ∀ u, u ≠ [] → u <:+ b → f (u ++ y) = f u) :
    gather f (b ++ y) = gather f b ++ gather f y := by
  induction b with
  | nil => rw [List.nil_append, gather_nil, h0, List.nil_append]
  | cons c b ih =>
    have hc := h (c :: b) (by simp) (List.suffix_refl _)
    rw [List.cons_append] at hc ⊢
    rw [gather_cons, gather_cons, hc, List.append_assoc,
      ih fun u hu hs => h u hu (hs.trans (List.suffix_cons c b))]

theorem gather_append_of_nil {x a : List α} (h : ∀ u, u ≠ [] → u <:+ x → f (u ++ a) = []) :
    gather f (x ++ a) = gather f a := by
  induction x with
  | nil => rfl
  | cons c x ih =>
    have hc := h (c :: x) (by simp) (List.suffix_refl _)
    rw [List.cons_append] at hc ⊢
    rw [gather_cons, hc, List.nil_append]
    exact ih fun u hu hs => h u hu (hs.trans (List.suffix_cons c x))

/-- What is found around `x`, if `x` neither changes what is found before it nor adds to it after
its first element. -/
theorem gather_around {x a : List α} (h0 : f [] = []) (hx : x ≠ [])
    (before : ∀ b, b ≠ [] → f (b ++ (x ++ a)) = f b)
    (inside : ∀ u, u ≠ [] → u <:+ x.tail → f (u ++ a) = []) (b : List α) :
    gather f (b ++ (x ++ a)) = gather f b ++ (f (x ++ a) ++ gather f a) := by
  obtain ⟨c, x, rfl⟩ := List.exists_cons_of_ne_nil hx
  rw [gather_append h0 fun u hu _ => before u hu, List.cons_append, gather_cons,
    gather_append_of_nil (x := x) inside]

end Gather

/-! ## Marks -/

section Marks

variable [BEq α]

/-- The patterns of the list that begin in `s`, from left to right. -/
def marks (ks : List (List α)) (s : List α) : List (List α) :=
  s.tails.filterMap fun t => ks.find? (·.isPrefixOf t)

theorem marks_eq_gather (ks : List (List α)) (s : List α) :
    marks ks s = gather (fun t => (ks.find? (·.isPrefixOf t)).toList) s :=
  List.filterMap_eq_flatMap_toList _ _

variable [LawfulBEq α] {ks : List (List α)}

theorem find?_begins_eq_none {t : List α} (h : ∀ k ∈ ks, ¬ k <+: t) :
    ks.find? (·.isPrefixOf t) = none :=
  List.find?_eq_none.2 fun k hk hp => h k hk (List.isPrefixOf_iff_prefix.1 hp)

theorem find?_begins_congr {s t : List α} (h : ∀ k ∈ ks, k <+: s ↔ k <+: t) :
    ks.find? (·.isPrefixOf s) = ks.find? (·.isPrefixOf t) := by
  refine List.find?_congr fun k hk => ?_
  rw [Bool.eq_iff_iff, List.isPrefixOf_iff_prefix, List.isPrefixOf_iff_prefix]
  exact h k hk

/-- Around a pattern that is clear of all, only the place where it begins itself is left to look
at. -/
theorem marks_around {x : List α} (h0 : [] ∉ ks) (hx : x ≠ []) (h : ∀ k ∈ ks, Clear k x)
    (b a : List α) : marks ks (b ++ x ++ a) =
      marks ks b ++ ((ks.find? (·.isPrefixOf (x ++ a))).toList ++ marks ks a) := by
  rw [List.append_assoc]
  simp only [marks_eq_gather]
  refine gather_around ?_ hx (fun b hb => ?_) (fun u hu hs => ?_) b
  · rw [find?_begins_eq_none fun k hk hp => h0 (List.prefix_nil.1 hp ▸ hk)]
    rfl
  · rw [find?_begins_congr fun k hk => (h k hk).prefix_append_iff hb a]
  · rw [find?_begins_eq_none fun k hk => not_prefix_of_not_beginsIn (h k hk).1 hu hs a]
    rfl

theorem marks_around_of_apart {x : List α} (hx : x ≠ []) (h : ∀ k ∈ ks, Apart k x)
    (b a : List α) : marks ks (b ++ x ++ a) = marks ks b ++ marks ks a := by
  have h0 : [] ∉ ks := fun hk => (h [] hk).ne_nil hx rfl
  have hnone : ks.find? (·.isPrefixOf (x ++ a)) = none :=
    find?_begins_eq_none fun k hk =>
      not_prefix_of_not_beginsIn (h k hk).1 hx (List.suffix_refl x) a
  rw [marks_around h0 hx fun k hk => (h k hk).clear, hnone]
  rfl

end Marks

/-! ## Blocks -/

/-- Patterns of which no two occurrences overlap. -/
structure Blocks (α : Type u) where
  patterns : List (List α)
  ne_nil : ∀ x ∈ patterns, x ≠ []
  clear : ∀ x ∈ patterns, ∀ y ∈ patterns, Clear x y
  alike : ∀ x ∈ patterns, ∀ y ∈ patterns, Agree x y → x = y

theorem Blocks.not_mem_nil (B : Blocks α) : [] ∉ B.patterns := fun h => B.ne_nil [] h rfl

variable [BEq α] [LawfulBEq α] {B : Blocks α}

/-- Where a block begins, no other one does. -/
theorem Blocks.find?_begins {t x : List α} (hx : x ∈ B.patterns) (hp : x <+: t) :
    B.patterns.find? (·.isPrefixOf t) = some x := by
  cases h : B.patterns.find? (·.isPrefixOf t) with
  | none => exact absurd (List.isPrefixOf_iff_prefix.2 hp) (List.find?_eq_none.1 h x hx)
  | some y =>
    have hy : y <+: t := by simpa using List.find?_some h
    rw [B.alike y (List.mem_of_find?_eq_some h) x hx (agree_of_prefixes hy hp)]

theorem marks_around_block {x : List α} (hx : x ∈ B.patterns) (b a : List α) :
    marks B.patterns (b ++ x ++ a) = marks B.patterns b ++ x :: marks B.patterns a := by
  rw [marks_around B.not_mem_nil (B.ne_nil x hx) fun y hy => B.clear y hy x hx,
    B.find?_begins hx (List.prefix_append x a)]
  rfl

theorem mem_marks_iff {k s : List α} (hk : k ∈ B.patterns) :
    k ∈ marks B.patterns s ↔ k <:+: s := by
  simp only [marks, List.mem_filterMap, List.mem_tails, List.infix_iff_prefix_suffix]
  constructor
  · rintro ⟨t, ht, hf⟩
    exact ⟨t, by simpa using List.find?_some hf, ht⟩
  · rintro ⟨t, hp, ht⟩
    exact ⟨t, ht, B.find?_begins hk hp⟩

end BundlePatch.Pattern
