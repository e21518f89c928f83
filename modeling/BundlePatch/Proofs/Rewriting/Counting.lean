import BundlePatch.Proofs.Pattern.Stacked
import BundlePatch.Proofs.Rewriting.Draining
import Mathlib.Data.List.Nodup

/-!
# What one pass leaves to do

`Tracks rule count is`: for each rule of a list, `count` is the number of edits that are
left for it. An edit takes one away for its own rule and leaves the numbers of the other
rules alone, so the others around it let it run down (`Tracks.drains`). A pass then takes one away
for every rule that has any (`Tracks.count_run`), and reports those rules (`Tracks.applied_run`).

Such counts are `starts`, if no candidate can overlap another or what replaces it, and
`stacked`, for a rule that removes what stands after a pattern.
-/

namespace BundlePatch

open Pattern

universe u v

variable {α : Type u}

/-! ## Counts that edits keep -/

/-- The edits of the rule do not change the count. -/
def Rule.Keeps (r : Rule α) (count : List α → Nat) : Prop :=
  ∀ s t : List α, r.Edit s t → count t = count s

theorem Pass.count_run_of_keeps [BEq α] [LawfulBEq α] {rs : List (Rule α)}
    {count : List α → Nat} (h : ∀ r ∈ rs, r.Keeps count) (s : List α) :
    count (Pass.run rs s).content = count s :=
  (Pass.edits_run (List.Subset.refl rs) s).congr h

/-- The patterns that the rule looks for or inserts. -/
def Rule.patterns (r : Rule α) : List (List α) := r.replacement :: r.candidates

section

variable [BEq α] [LawfulBEq α] {r : Rule α}

theorem Rule.keeps_starts {ks : List (List α)} (hne : ∀ x ∈ r.patterns, x ≠ [])
    (h : ∀ x ∈ r.patterns, ∀ k ∈ ks, Apart k x) : r.Keeps (starts ks) := by
  intro s t hst
  obtain ⟨b, a, hk⟩ := hst
  have around : ∀ x ∈ r.patterns, starts ks (b ++ x ++ a) = starts ks b + starts ks a :=
    fun x hx => starts_around_of_apart (hne x hx) (h x hx) b a
  rw [around _ List.mem_cons_self, around _ (List.mem_cons_of_mem _ hk)]

theorem Rule.keeps_stacked {p g : List α} (hne : ∀ x ∈ r.patterns, x ≠ [])
    (hp : ∀ x ∈ r.patterns, Apart p x) (hg : ∀ x ∈ r.patterns, Apart g x) :
    r.Keeps (stacked p g) := by
  intro s t hst
  obtain ⟨b, a, hk⟩ := hst
  have around : ∀ x ∈ r.patterns, stacked p g (b ++ x ++ a) = stacked p g b + stacked p g a :=
    fun x hx => stacked_around_of_apart (hne x hx) (hp x hx) (hg x hx) b a
  rw [around _ List.mem_cons_self, around _ (List.mem_cons_of_mem _ hk)]

/-- An edit takes one occurrence away if no candidate overlaps another, or what is inserted. -/
theorem Rule.Edit.starts_succ {s t : List α} (hst : r.Edit s t) (hne : ∀ x ∈ r.patterns, x ≠ [])
    (hc : ∀ k ∈ r.candidates, ∀ k' ∈ r.candidates, Clear k k')
    (hr : ∀ k ∈ r.candidates, Apart k r.replacement) :
    starts r.candidates t + 1 = starts r.candidates s := by
  obtain ⟨b, a, hk⟩ := hst
  have h0 : [] ∉ r.candidates := fun h => hne [] (List.mem_cons_of_mem _ h) rfl
  rw [starts_around_of_apart (hne _ List.mem_cons_self) hr,
    starts_around_of_mem h0 hk fun k' hk' => hc k' hk' _ hk]

/-- So does an edit that takes one copy of `g` away from after `p`. -/
theorem Rule.Edit.stacked_succ {p g s t : List α} (hst : r.Edit s t)
    (hk : r.candidates = [p ++ g]) (hr : r.replacement = p) (hp : p ≠ []) (hc : Clear p p)
    (hg : Apart g p) : stacked p g t + 1 = stacked p g s := by
  obtain ⟨b, a, hmem⟩ := hst
  rw [hk, List.mem_singleton] at hmem
  rw [hmem, hr]
  exact Pattern.stacked_succ hp hc hg b a

end

/-! ## Counts of what is left -/

variable {ι : Type v}

/-- `count i` is the number of edits that are left for the rule `i`. -/
structure Tracks (rule : ι → Rule α) (count : ι → List α → Nat) (is : List ι) : Prop where
  nodup : is.Nodup
  pos_iff : ∀ i ∈ is, ∀ s, 0 < count i s ↔ (rule i).Occurs s
  own : ∀ i ∈ is, ∀ s t, (rule i).Edit s t → count i t + 1 = count i s
  other : ∀ i ∈ is, ∀ j ∈ is, i ≠ j → (rule i).Keeps (count j)

namespace Tracks

variable {rule : ι → Rule α} {count : ι → List α → Nat} {i : ι} {is : List ι}

theorem tail (h : Tracks rule count (i :: is)) : Tracks rule count is where
  nodup := (List.nodup_cons.1 h.nodup).2
  pos_iff := fun j hj => h.pos_iff j (List.mem_cons_of_mem _ hj)
  own := fun j hj => h.own j (List.mem_cons_of_mem _ hj)
  other := fun j hj j' hj' =>
    h.other j (List.mem_cons_of_mem _ hj) j' (List.mem_cons_of_mem _ hj')

/-- The count of one rule, with all others around it. -/
theorem drains {before after : List ι} (h : Tracks rule count (before ++ i :: after)) :
    Drains (rule i) (before.map rule ++ after.map rule) (fun _ => True) (count i) where
  pos_iff := h.pos_iff i List.mem_append_cons_self
  own := fun s t hst _ => ⟨trivial, h.own i List.mem_append_cons_self s t hst⟩
  other := by
    intro q hq s t hst _
    rw [← List.map_append] at hq
    obtain ⟨j, hj, rfl⟩ := List.mem_map.1 hq
    have hne : j ≠ i := fun e => (List.nodup_middle.1 h.nodup).notMem (e ▸ hj)
    have hmem : j ∈ before ++ i :: after :=
      ((List.sublist_cons_self i after).append_left before).subset hj
    exact ⟨trivial, h.other j hmem i List.mem_append_cons_self hne s t hst⟩

variable [BEq α] [LawfulBEq α]

theorem count_run (h : Tracks rule count is) (s : List α) :
    ∀ i ∈ is, count i (Pass.run (is.map rule) s).content = count i s - 1 := by
  intro i hi
  obtain ⟨before, after, rfl⟩ := List.append_of_mem hi
  rw [List.map_append, List.map_cons]
  exact (h.drains.count_run trivial).2

/-- The pass reports the rules that had an edit left when it began. -/
theorem applied_run (h : Tracks rule count is) (s : List α) :
    (Pass.run (is.map rule) s).applied =
      (is.filter fun i => 0 < count i s).map fun i => (rule i).name := by
  induction is generalizing s with
  | nil => rfl
  | cons j is ih =>
    have hj : 0 < count j s ↔ (rule j).Occurs s := h.pos_iff j List.mem_cons_self s
    rw [List.map_cons]
    cases hf : (rule j).fire? s with
    | none =>
      rw [Pass.run_cons_none hf, ih h.tail s, List.filter_cons_of_neg]
      simpa using mt hj.1 (Rule.fire?_eq_none_iff.1 hf)
    | some t =>
      have hst : (rule j).Edit s t := Rule.edit_of_fire? hf
      -- the edit of the first rule leaves the counts of the others as they were
      have hcount : ∀ i ∈ is, count i t = count i s := by
        intro i hi
        have hne : j ≠ i := fun e => (List.nodup_cons.1 h.nodup).1 (e ▸ hi)
        exact h.other j List.mem_cons_self i (List.mem_cons_of_mem _ hi) hne s t hst
      have hpos : 0 < count j s := by
        have := h.own j List.mem_cons_self s t hst
        omega
      have hfilter : (is.filter fun i => 0 < count i t) = is.filter fun i => 0 < count i s :=
        List.filter_congr fun i hi => by rw [hcount i hi]
      rw [Pass.run_cons_some hf, List.filter_cons_of_pos (by simpa using hpos), List.map_cons,
        ih h.tail t, hfilter]

/-- After the pass a rule has nothing left to do exactly where it had at most one edit left. -/
theorem not_occurs_run_iff (h : Tracks rule count is) (s : List α) (hi : i ∈ is) :
    ¬ (rule i).Occurs (Pass.run (is.map rule) s).content ↔ count i s ≤ 1 := by
  rw [← h.pos_iff i hi, h.count_run s i hi]
  omega

end Tracks

end BundlePatch
