import BundlePatch.Proofs.Rewriting.Counting
import Mathlib.Logic.Function.Iterate

/-!
# One pass after the other

The passes with one list of rules, each on what the one before it left.

A rule whose candidates and replacement are blocks edits them from left to right, those of the
first candidate before those of the next: `Rule.advance` says so of the marks of its patterns, and
a pass does with the text what that says of its marks (`Pass.marks_run`).

If every rule has a count of the edits that are left for it (`Tracks`), then the pass after `j`
others reports the rules that had more than `j` (`Tracks.applied_through`).
-/

namespace BundlePatch

open Pattern

universe u v

variable {α : Type u}

variable [BEq α]

/-! ## Passes in a row -/

namespace Pass

theorem content_run_through (rs : List (Rule α)) (j : Nat) (s : List α) :
    (run rs (through (List.replicate j rs) s)).content =
      through (List.replicate (j + 1) rs) s := by
  induction j generalizing s with
  | zero => rfl
  | succ j ih => rw [through_replicate_succ, ih, through_replicate_succ rs (j + 1)]

/-- What one pass does to an observation, `j` passes do `j` times. -/
theorem through_replicate {β : Type v} {f : List α → β} {g : β → β} {rs : List (Rule α)}
    (h : ∀ s, f (run rs s).content = g (f s)) (j : Nat) (s : List α) :
    f (through (List.replicate j rs) s) = g^[j] (f s) := by
  induction j generalizing s with
  | zero => rfl
  | succ j ih => rw [through_replicate_succ, ih, h, Function.iterate_succ_apply]

theorem getElem?_successive {rs : List (Rule α)} {n j : Nat} (h : j < n) (s : List α) :
    (successive rs n s)[j]? = some (run rs (through (List.replicate j rs) s)) := by
  induction n generalizing j s with
  | zero => exact absurd h (Nat.not_lt_zero j)
  | succ n ih =>
    cases j with
    | zero => rfl
    | succ j =>
      rw [through_replicate_succ, ← ih (Nat.lt_of_succ_lt_succ h)]
      rfl

end Pass

/-! ## Marks -/

/-- The marks after one edit: of the candidates that are among them, the first in the list is
replaced, at its first place. -/
def Rule.advance (r : Rule α) (ms : List (List α)) : List (List α) :=
  match r.candidates.find? ms.contains with
  | some k => ms.replace k r.replacement
  | none => ms

variable [LawfulBEq α]

theorem Rule.advance_of_disjoint {r : Rule α} {ms : List (List α)}
    (h : ∀ k ∈ r.candidates, k ∉ ms) : r.advance ms = ms := by
  have hnone : r.candidates.find? ms.contains = none :=
    List.find?_eq_none.2 fun k hk => by simpa using h k hk
  rw [advance, hnone]

theorem Rule.advance_append_cons {r : Rule α} {tried untried before after : List (List α)}
    {k : List α} (hr : r.candidates = tried ++ k :: untried)
    (htried : ∀ k' ∈ tried, k' ∉ before ++ k :: after) (hk : k ∉ before) :
    r.advance (before ++ k :: after) = before ++ r.replacement :: after := by
  have hfind : r.candidates.find? (before ++ k :: after).contains = some k := by
    refine List.find?_eq_some_iff_append.2 ⟨by simp, tried, untried, hr, fun k' hk' => ?_⟩
    simpa using htried k' hk'
  rw [advance, hfind]
  dsimp only
  rw [List.replace_append_right hk, List.replace_cons_self]

/-- Of two candidates, the second is replaced when none of the first is left. -/
theorem Rule.count_advance {r : Rule α} {k k' : List α} (hr : r.candidates = [k, k'])
    (hne : k' ≠ k) (hk : r.replacement ≠ k) (hk' : r.replacement ≠ k') (ms : List (List α)) :
    (r.advance ms).count k = ms.count k - 1 ∧
      (r.advance ms).count k' = ms.count k' - (1 - ms.count k) := by
  unfold advance
  rw [hr]
  by_cases h : k ∈ ms
  · have hpos : 0 < ms.count k := List.count_pos_iff.2 h
    rw [List.find?_cons_of_pos (by simpa using h)]
    simp only [List.count_replace, List.contains_iff_mem, h, if_true, beq_iff_eq, hk, hk', hne.symm,
      if_false, beq_self_eq_true]
    omega
  · have h0 : ms.count k = 0 := List.count_eq_zero.2 h
    rw [List.find?_cons_of_neg (by simpa using h)]
    by_cases h' : k' ∈ ms
    · rw [List.find?_cons_of_pos (by simpa using h')]
      simp only [List.count_replace, List.contains_iff_mem, h', if_true, beq_iff_eq, hk, hk', hne,
        if_false, beq_self_eq_true]
      omega
    · have h0' : ms.count k' = 0 := List.count_eq_zero.2 h'
      rw [List.find?_cons_of_neg (by simpa using h'), List.find?_nil]
      dsimp only
      omega

theorem Rule.count_iterate_advance {r : Rule α} {k k' : List α} (hr : r.candidates = [k, k'])
    (hne : k' ≠ k) (hk : r.replacement ≠ k) (hk' : r.replacement ≠ k') (j : Nat)
    (ms : List (List α)) : (r.advance^[j] ms).count k = ms.count k - j ∧
      (r.advance^[j] ms).count k' = ms.count k' - (j - ms.count k) := by
  induction j generalizing ms with
  | zero => exact ⟨rfl, by rw [Nat.zero_sub]; rfl⟩
  | succ j ih =>
    obtain ⟨h, h'⟩ := Rule.count_advance hr hne hk hk' ms
    obtain ⟨ih, ih'⟩ := ih (r.advance ms)
    rw [Function.iterate_succ_apply, ih, ih', h, h']
    omega

section Marks

variable {r : Rule α} {B : Blocks α}

theorem Rule.marks_fire? (hB : B.patterns = r.patterns) {s t : List α} (h : r.fire? s = some t) :
    marks r.patterns t = r.advance (marks r.patterns s) := by
  obtain ⟨k, o, hsite, rfl⟩ := Rule.fire?_eq_some_iff.1 h
  obtain ⟨⟨tried, untried, hk, hn⟩, ho⟩ := hsite
  have mem {x : List α} (hx : x ∈ r.candidates) : x ∈ B.patterns :=
    hB ▸ List.mem_cons_of_mem _ hx
  have hkB : k ∈ B.patterns := mem (by simp [hk])
  have hs : marks B.patterns s =
      marks B.patterns o.before ++ k :: marks B.patterns o.after := by
    rw [← marks_around_block hkB, ← ho.split]
  rw [← hB, hs]
  rw [Rule.advance_append_cons hk, Occurrence.replace, marks_around_block (hB ▸ List.mem_cons_self)]
  · intro k' hk'
    rw [← hs, mem_marks_iff (mem (by simp [hk, hk']))]
    exact hn k' hk'
  · rw [mem_marks_iff hkB]
    exact ho.not_infix_before (B.ne_nil k hkB)

theorem Rule.advance_marks_of_not_occurs (hB : B.patterns = r.patterns) {s : List α}
    (h : ¬ r.Occurs s) : r.advance (marks r.patterns s) = marks r.patterns s := by
  apply Rule.advance_of_disjoint
  intro k hk hm
  rw [← hB, mem_marks_iff (hB ▸ List.mem_cons_of_mem _ hk)] at hm
  exact h ⟨k, hk, hm⟩

/-- Edits that keep apart from all that `ks` holds leave the marks as they are. -/
theorem Rule.Edit.marks_eq {ks : List (List α)} {s t : List α} (hst : r.Edit s t)
    (hne : ∀ x ∈ r.patterns, x ≠ []) (h : ∀ x ∈ r.patterns, ∀ k ∈ ks, Apart k x) :
    marks ks t = marks ks s := by
  obtain ⟨b, a, hk⟩ := hst
  have around : ∀ x ∈ r.patterns, marks ks (b ++ x ++ a) = marks ks b ++ marks ks a :=
    fun x hx => marks_around_of_apart (hne x hx) (h x hx) b a
  rw [around _ List.mem_cons_self, around _ (List.mem_cons_of_mem _ hk)]

/-- A pass advances the marks of a rule once, if its other rules leave them as they are. -/
theorem Pass.marks_run (hB : B.patterns = r.patterns) {before after : List (Rule α)}
    (hkeep : ∀ r' ∈ before ++ after, ∀ s t, r'.Edit s t →
      marks r.patterns t = marks r.patterns s) (s : List α) :
    marks r.patterns (run (before ++ r :: after) s).content =
      r.advance (marks r.patterns s) := by
  have hbefore : ∀ s, marks r.patterns (run before s).content = marks r.patterns s := fun s =>
    (edits_run (List.Subset.refl before) s).congr fun r' hr' =>
      hkeep r' (List.mem_append_left _ hr')
  have hafter : ∀ s, marks r.patterns (run after s).content = marks r.patterns s := fun s =>
    (edits_run (List.Subset.refl after) s).congr fun r' hr' =>
      hkeep r' (List.mem_append_right _ hr')
  rw [run_append, ← hbefore s]
  generalize (run before s).content = u
  cases hf : r.fire? u with
  | none =>
    rw [run_cons_none hf, hafter,
      Rule.advance_marks_of_not_occurs hB (Rule.fire?_eq_none_iff.1 hf)]
  | some t =>
    rw [run_cons_some hf]
    exact (hafter t).trans (Rule.marks_fire? hB hf)

end Marks

/-! ## Counts -/

namespace Tracks

variable {ι : Type v} {rule : ι → Rule α} {count : ι → List α → Nat} {is : List ι}

theorem count_through (h : Tracks rule count is) {i : ι} (hi : i ∈ is) (j : Nat) (s : List α) :
    count i (Pass.through (List.replicate j (is.map rule)) s) = count i s - j := by
  obtain ⟨before, after, rfl⟩ := List.append_of_mem hi
  rw [List.map_append, List.map_cons]
  exact (h.drains.count_through trivial j).2

theorem applied_through (h : Tracks rule count is) (j : Nat) (s : List α) :
    (Pass.run (is.map rule) (Pass.through (List.replicate j (is.map rule)) s)).applied =
      (is.filter fun i => j < count i s).map fun i => (rule i).name := by
  have hfilter : (is.filter fun i =>
      0 < count i (Pass.through (List.replicate j (is.map rule)) s)) =
        is.filter fun i => j < count i s := by
    refine List.filter_congr fun i hi => ?_
    rw [h.count_through hi, decide_eq_decide]
    omega
  rw [h.applied_run, hfilter]

end Tracks

end BundlePatch
