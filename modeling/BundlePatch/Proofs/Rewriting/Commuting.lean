import BundlePatch.Proofs.Rewriting.Counting
import BundlePatch.Proofs.Rewriting.Foreign
import Mathlib.Data.List.Perm.Basic

/-!
# Rules that commute

Two rules are `Independent` if all that either of them looks for or inserts is foreign to the other.
Then they do the same in either order (`Rule.Independent.run_swap`), so the order of a list of
rules, any two of which are independent, matters only to the order in which it reports them
(`Pass.run_perm`).
-/

namespace BundlePatch

open Pattern

universe u

variable {α : Type u}

namespace Rule

/-- What one of the rules looks for or inserts is foreign to the other. -/
def Independent (r r' : Rule α) : Prop := ∀ x ∈ r.patterns, ∀ y ∈ r'.patterns, x ≠ [] ∧ Apart x y

namespace Independent

variable {r r' : Rule α}

theorem symm (h : r.Independent r') : r'.Independent r := fun y hy x hx =>
  ⟨(h x hx y hy).2.symm.ne_nil (h x hx y hy).1, (h x hx y hy).2.symm⟩

theorem foreign (h : r.Independent r') {x : List α} (hx : x ∈ r.patterns) : r'.Foreign x :=
  ⟨(h x hx _ List.mem_cons_self).1, fun k hk => (h x hx k (List.mem_cons_of_mem _ hk)).2.symm⟩

theorem occurs_iff (h : r.Independent r') {s t : List α} (hst : r.Edit s t) :
    r'.Occurs t ↔ r'.Occurs s := by
  obtain ⟨b, a, hk⟩ := hst
  exact (h.foreign List.mem_cons_self).occurs_congr (h.foreign (List.mem_cons_of_mem _ hk))

variable [BEq α] [LawfulBEq α]

/-- Of two rules whose places are one after the other, either finds its place after the other has
fired. -/
theorem exists_join_of_before (h : r.Independent r') {s b k m k' a : List α}
    (hs : r.Site s k ⟨b, m ++ k' ++ a⟩) (hs' : r'.Site s k' ⟨b ++ k ++ m, a⟩) :
    ∃ v, r'.fire? (b ++ r.replacement ++ (m ++ k' ++ a)) = some v ∧
      r.fire? (b ++ k ++ m ++ r'.replacement ++ a) = some v := by
  have hk : k ∈ r.patterns := List.mem_cons_of_mem _ hs.mem
  have hk' : k' ∈ r'.patterns := List.mem_cons_of_mem _ hs'.mem
  obtain rfl : s = b ++ k ++ m ++ k' ++ a := hs'.2.split
  have ht := (h.foreign hk).site_before (h.foreign List.mem_cons_self) hs'
  have ht' := (h.symm.foreign hk').site_after (h.symm.foreign List.mem_cons_self) hs
  refine ⟨b ++ r.replacement ++ m ++ r'.replacement ++ a, ?_, ?_⟩
  · simp only [← List.append_assoc]
    exact fire?_eq_some_iff.2 ⟨k', _, ht, rfl⟩
  · exact fire?_eq_some_iff.2 ⟨k, _, ht', by simp [Occurrence.replace]⟩

theorem exists_join (h : r.Independent r') {s t t' : List α} (ht : r.fire? s = some t)
    (ht' : r'.fire? s = some t') : ∃ v, r'.fire? t = some v ∧ r.fire? t' = some v := by
  obtain ⟨k, ⟨b, a⟩, hs, rfl⟩ := fire?_eq_some_iff.1 ht
  obtain ⟨k', ⟨b', a'⟩, hs', rfl⟩ := fire?_eq_some_iff.1 ht'
  have hk' : k' ∈ r'.patterns := List.mem_cons_of_mem _ hs'.mem
  obtain ⟨-, hapart⟩ := h k (List.mem_cons_of_mem _ hs.mem) k' hk'
  have hne : k' ≠ [] := (h.symm k' hk' _ List.mem_cons_self).1
  have e : b ++ k ++ a = b' ++ k' ++ a' := hs.2.split.symm.trans hs'.2.split
  rcases hapart.places hne e with ⟨m, rfl, rfl⟩ | ⟨m, rfl, rfl⟩
  · exact exists_join_of_before h hs hs'
  · obtain ⟨v, hv, hv'⟩ := exists_join_of_before h.symm hs' hs
    exact ⟨v, hv', hv⟩

theorem fire?_eq_none_iff_of_fire? (h : r.Independent r') {s t : List α} (ht : r.fire? s = some t) :
    r'.fire? t = none ↔ r'.fire? s = none := by
  rw [fire?_eq_none_iff, fire?_eq_none_iff, h.occurs_iff (edit_of_fire? ht)]

/-- Whether the first or the second comes first matters only to the report. -/
theorem run_swap (h : r.Independent r') (rs : List (Rule α)) (s : List α) :
    (Pass.run (r :: r' :: rs) s).content = (Pass.run (r' :: r :: rs) s).content ∧
      (Pass.run (r :: r' :: rs) s).applied.Perm (Pass.run (r' :: r :: rs) s).applied := by
  cases ht : r.fire? s with
  | none =>
    cases ht' : r'.fire? s with
    | none =>
      rw [Pass.run_cons_none ht, Pass.run_cons_none ht', Pass.run_cons_none ht',
        Pass.run_cons_none ht]
      exact ⟨rfl, .refl _⟩
    | some t' =>
      have hnone : r.fire? t' = none := (h.symm.fire?_eq_none_iff_of_fire? ht').2 ht
      rw [Pass.run_cons_none ht, Pass.run_cons_some ht', Pass.run_cons_some ht',
        Pass.run_cons_none hnone]
      exact ⟨rfl, .refl _⟩
  | some t =>
    cases ht' : r'.fire? s with
    | none =>
      have hnone : r'.fire? t = none := (h.fire?_eq_none_iff_of_fire? ht).2 ht'
      rw [Pass.run_cons_some ht, Pass.run_cons_none hnone, Pass.run_cons_none ht',
        Pass.run_cons_some ht]
      exact ⟨rfl, .refl _⟩
    | some t' =>
      obtain ⟨v, hv, hv'⟩ := h.exists_join ht ht'
      rw [Pass.run_cons_some ht, Pass.run_cons_some hv, Pass.run_cons_some ht',
        Pass.run_cons_some hv']
      exact ⟨rfl, .swap _ _ _⟩

end Independent

end Rule

/-! ## Lists of rules -/

variable [BEq α] [LawfulBEq α]

theorem Pass.run_perm {rs rs' : List (Rule α)} (hp : rs.Perm rs')
    (h : rs.Pairwise Rule.Independent) (s : List α) :
    (run rs s).content = (run rs' s).content ∧ (run rs s).applied.Perm (run rs' s).applied := by
  induction hp generalizing s with
  | nil => exact ⟨rfl, .refl _⟩
  | cons r _ ih =>
    have ih := ih (List.pairwise_cons.1 h).2
    cases hf : r.fire? s with
    | none => rw [run_cons_none hf, run_cons_none hf]; exact ih s
    | some t =>
      rw [run_cons_some hf, run_cons_some hf]
      exact ⟨(ih t).1, (ih t).2.cons _⟩
  | swap r r' rs =>
    exact Rule.Independent.run_swap ((List.pairwise_cons.1 h).1 r List.mem_cons_self) rs s
  | trans hp _ ih ih' =>
    obtain ⟨hc, ha⟩ := ih h s
    obtain ⟨hc', ha'⟩ := ih' (hp.pairwise h Rule.Independent.symm) s
    exact ⟨hc.trans hc', ha.trans ha'⟩

end BundlePatch
