import BundlePatch.Proofs.Pattern.Apart
import BundlePatch.Proofs.Rewriting.Edits
import Mathlib.Logic.Relation

/-!
# Confluence

In an `Orthogonal` list of rules no two candidates overlap. Two edits of one list then
stand at different places and can be made in either order (`Orthogonal.diamond`), so
all chains of edits that leave nothing to do end in the same list
(`Orthogonal.final_unique`). That one edit may create the place of another does no harm:
it never takes one away (`Orthogonal.occurs_of_edit`).
-/

namespace BundlePatch

open Pattern

universe u

variable {α : Type u}

/-- Candidates of the rules do not overlap, unless they are the same and are replaced alike. -/
structure Orthogonal (rules : List (Rule α)) : Prop where
  clear : ∀ r ∈ rules, ∀ r' ∈ rules, ∀ k ∈ r.candidates, ∀ k' ∈ r'.candidates, Clear k k'
  alike : ∀ r ∈ rules, ∀ r' ∈ rules, ∀ k ∈ r.candidates, ∀ k' ∈ r'.candidates, Agree k k' →
    k = k' ∧ r.replacement = r'.replacement

/-- Some rule of the list makes an edit. -/
def Rewrites (rules : List (Rule α)) (s t : List α) : Prop := ∃ r ∈ rules, r.Edit s t

theorem rewrites_iff {rules : List (Rule α)} {s t : List α} :
    Rewrites rules s t ↔ ∃ r ∈ rules, ∃ k ∈ r.candidates, ∃ b a,
      s = b ++ k ++ a ∧ t = b ++ r.replacement ++ a := by
  constructor
  · rintro ⟨r, hr, ⟨b, a, hk⟩⟩
    exact ⟨r, hr, _, hk, b, a, rfl, rfl⟩
  · rintro ⟨r, hr, k, hk, b, a, rfl, rfl⟩
    exact ⟨r, hr, .mk b a hk⟩

theorem rewrites_of_mem {rules : List (Rule α)} {r : Rule α} (hr : r ∈ rules) {k : List α}
    (hk : k ∈ r.candidates) {b a s t : List α} (hs : s = b ++ k ++ a)
    (ht : t = b ++ r.replacement ++ a) : Rewrites rules s t :=
  rewrites_iff.2 ⟨r, hr, k, hk, b, a, hs, ht⟩

theorem Edits.reflTransGen {rules : List (Rule α)} {n : Nat} {s t : List α}
    (h : Edits rules n s t) : Relation.ReflTransGen (Rewrites rules) s t := by
  induction h with
  | refl => exact .refl
  | step hr he _ ih => exact .head ⟨_, hr, he⟩ ih

/-- Nothing is left to do where no candidate occurs. -/
theorem not_rewrites_of_not_occurs {rules : List (Rule α)} {s t : List α}
    (h : ∀ r ∈ rules, ¬ r.Occurs s) : ¬ Rewrites rules s t := by
  intro ht
  obtain ⟨r, hr, k, hk, b, a, rfl, -⟩ := rewrites_iff.1 ht
  exact h r hr ⟨k, hk, b, a, rfl⟩

namespace Orthogonal

variable {rules : List (Rule α)}

theorem diamond (h : Orthogonal rules) {s t t' : List α} (ht : Rewrites rules s t)
    (ht' : Rewrites rules s t') : t = t' ∨ ∃ v, Rewrites rules t v ∧ Rewrites rules t' v := by
  obtain ⟨r, hr, k, hk, b, a, rfl, rfl⟩ := rewrites_iff.1 ht
  obtain ⟨r', hr', k', hk', b', a', e, rfl⟩ := rewrites_iff.1 ht'
  rcases (h.clear r hr r' hr' k hk k' hk').places e with ⟨rfl, hka⟩ | ⟨m, rfl, rfl⟩ | ⟨m, rfl, rfl⟩
  · -- the same place: then it is the same candidate, and what follows it is the same
    have hkk : Agree k k' :=
      agree_of_prefixes (List.prefix_append k a) (hka ▸ List.prefix_append k' a')
    obtain ⟨rfl, hrep⟩ := h.alike r hr r' hr' k hk k' hk' hkk
    obtain rfl := List.append_cancel_left hka
    exact .inl (by rw [hrep])
  · refine .inr ⟨b ++ r.replacement ++ m ++ r'.replacement ++ a', ?_, ?_⟩
    · exact rewrites_of_mem hr' hk' (b := b ++ r.replacement ++ m) (by simp) rfl
    · exact rewrites_of_mem hr hk (b := b) (a := m ++ r'.replacement ++ a') (by simp) (by simp)
  · refine .inr ⟨b' ++ r'.replacement ++ m ++ r.replacement ++ a, ?_, ?_⟩
    · exact rewrites_of_mem hr' hk' (b := b') (a := m ++ r.replacement ++ a) (by simp) (by simp)
    · exact rewrites_of_mem hr hk (b := b' ++ r'.replacement ++ m) (by simp) rfl

theorem final_unique (h : Orthogonal rules) {m n : Nat} {s t t' : List α}
    (ht : Edits rules m s t) (ht' : Edits rules n s t') (hf : ∀ r ∈ rules, ¬ r.Occurs t)
    (hf' : ∀ r ∈ rules, ¬ r.Occurs t') : t = t' := by
  have join : Relation.Join (Relation.ReflTransGen (Rewrites rules)) t t' := by
    refine Relation.church_rosser (fun s t t' ht ht' => ?_) ht.reflTransGen ht'.reflTransGen
    rcases h.diamond ht ht' with rfl | ⟨v, hv, hv'⟩
    · exact ⟨t, .refl, .refl⟩
    · exact ⟨v, .single hv, .single hv'⟩
  obtain ⟨v, hv, hv'⟩ := join
  have e : v = t :=
    (Relation.reflTransGen_iff_eq fun _ => not_rewrites_of_not_occurs hf).1 hv
  have e' : v = t' :=
    (Relation.reflTransGen_iff_eq fun _ => not_rewrites_of_not_occurs hf').1 hv'
  rw [← e, e']

/-- An edit of one rule takes no place of another away. -/
theorem occurs_of_edit (h : Orthogonal rules) {r r' : Rule α} (hr : r ∈ rules) (hr' : r' ∈ rules)
    (hne : ∀ k ∈ r.candidates, k ∉ r'.candidates) {s t : List α} (hst : r'.Edit s t)
    (ho : r.Occurs s) : r.Occurs t := by
  obtain ⟨k, hk, b, a, e⟩ := ho
  obtain ⟨b', a', hk'⟩ := hst
  rename_i k'
  rcases (h.clear r hr r' hr' k hk k' hk').places e with ⟨-, hka⟩ | ⟨m, rfl, -⟩ | ⟨m, -, rfl⟩
  · -- the same place: then the two rules share a candidate
    have hkk : Agree k k' :=
      agree_of_prefixes (List.prefix_append k a) (hka ▸ List.prefix_append k' a')
    obtain ⟨rfl, -⟩ := h.alike r hr r' hr' k hk k' hk' hkk
    exact absurd hk' (hne k hk)
  · exact ⟨k, hk, b, m ++ r'.replacement ++ a', by simp⟩
  · exact ⟨k, hk, b' ++ r'.replacement ++ m, a, by simp⟩

end Orthogonal

end BundlePatch
