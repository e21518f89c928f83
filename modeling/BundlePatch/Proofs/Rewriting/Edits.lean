import BundlePatch.Rule

/-!
# Edits

`r.Edit s t`: the rule `r` replaces one of its candidates somewhere in `s`, which gives
`t`. A rule that fires does this at one particular place (`Rule.edit_of_fire?`), so a
pass is a chain of as many edits as it reports rules (`Pass.edits_run`), and so is a
series of passes, each with a list of rules of its own (`Pass.edits_through`).
-/

namespace BundlePatch

universe u v

variable {α : Type u}

/-- The rule replaces one occurrence of one of its candidates, any one of them. -/
inductive Rule.Edit (r : Rule α) : List α → List α → Prop
  | mk {k : List α} (b a : List α) : k ∈ r.candidates →
      Edit r (b ++ k ++ a) (b ++ r.replacement ++ a)

/-- `n` edits by rules of the list, one after the other. -/
inductive Edits (rules : List (Rule α)) : Nat → List α → List α → Prop where
  | refl (s : List α) : Edits rules 0 s s
  | step {n : Nat} {r : Rule α} {s t u : List α} : r ∈ rules → r.Edit s t → Edits rules n t u →
      Edits rules (n + 1) s u

theorem Edits.trans {rules : List (Rule α)} {m n : Nat} {s t u : List α}
    (h1 : Edits rules m s t) (h2 : Edits rules n t u) : Edits rules (m + n) s u := by
  induction h1 with
  | refl => simpa using h2
  | step hr he _ ih => rw [Nat.add_right_comm]; exact .step hr he (ih h2)

/-- What every edit keeps, a chain of edits keeps. -/
theorem Edits.preserves {P : List α → Prop} {rules : List (Rule α)} {n : Nat} {s t : List α}
    (he : Edits rules n s t) (h : ∀ r ∈ rules, ∀ s t, r.Edit s t → P s → P t) (hs : P s) : P t := by
  induction he with
  | refl => exact hs
  | step hr hst _ ih => exact ih (h _ hr _ _ hst hs)

/-- What no edit changes, no chain of edits changes. -/
theorem Edits.congr {β : Type v} {f : List α → β} {rules : List (Rule α)} {n : Nat} {s t : List α}
    (he : Edits rules n s t) (h : ∀ r ∈ rules, ∀ s t, r.Edit s t → f t = f s) : f t = f s :=
  he.preserves (P := fun u => f u = f s) (fun r hr _ _ hst e => (h r hr _ _ hst).trans e) rfl

variable [BEq α]

namespace Pass

/-- What a series of passes leaves, one for each list of rules, each on what the one before it
left. -/
def through : List (List (Rule α)) → List α → List α
  | [], s => s
  | rs :: calls, s => through calls (run rs s).content

/-- The number of rules that such a series reports, over all its passes. -/
def appliedCount : List (List (Rule α)) → List α → Nat
  | [], _ => 0
  | rs :: calls, s => (run rs s).applied.length + appliedCount calls (run rs s).content

/-- The names of these rules, in order. -/
def reported : List (List (Rule α)) → List α → List String
  | [], _ => []
  | rs :: calls, s => (run rs s).applied ++ reported calls (run rs s).content

theorem through_append (calls calls' : List (List (Rule α))) (s : List α) :
    through (calls ++ calls') s = through calls' (through calls s) := by
  induction calls generalizing s with
  | nil => rfl
  | cons rs calls ih => exact ih (run rs s).content

theorem through_replicate_succ (rs : List (Rule α)) (j : Nat) (s : List α) :
    through (List.replicate (j + 1) rs) s =
      through (List.replicate j rs) (run rs s).content := by
  rw [List.replicate_succ, through]

theorem appliedCount_cons (rs : List (Rule α)) (calls : List (List (Rule α))) (s : List α) :
    appliedCount (rs :: calls) s =
      (run rs s).applied.length + appliedCount calls (run rs s).content := rfl

end Pass

variable [LawfulBEq α]

theorem Rule.edit_of_fire? {r : Rule α} {s t : List α} (h : r.fire? s = some t) : r.Edit s t := by
  obtain ⟨k, o, hs, rfl⟩ := Rule.fire?_eq_some_iff.1 h
  rw [hs.2.split]
  exact .mk o.before o.after hs.mem

namespace Pass

theorem edits_run {rules rs : List (Rule α)} (h : rs ⊆ rules) (s : List α) :
    Edits rules (run rs s).applied.length s (run rs s).content := by
  induction rs generalizing s with
  | nil => exact .refl s
  | cons r rs ih =>
    obtain ⟨hr, hrs⟩ := List.cons_subset.1 h
    cases hf : r.fire? s with
    | none => rw [run_cons_none hf]; exact ih hrs s
    | some t => rw [run_cons_some hf]; exact .step hr (Rule.edit_of_fire? hf) (ih hrs t)

theorem edits_through {rules : List (Rule α)} {calls : List (List (Rule α))}
    (h : ∀ rs ∈ calls, rs ⊆ rules) (s : List α) :
    Edits rules (appliedCount calls s) s (through calls s) := by
  induction calls generalizing s with
  | nil => exact .refl s
  | cons rs calls ih =>
    rw [appliedCount_cons]
    exact (edits_run (h rs List.mem_cons_self) s).trans
      (ih (fun rs hrs => h rs (List.mem_cons_of_mem _ hrs)) _)

theorem run_of_not_occurs {rs : List (Rule α)} {s : List α} (h : ∀ r ∈ rs, ¬ r.Occurs s) :
    run rs s = ⟨s, []⟩ := by
  induction rs with
  | nil => rfl
  | cons r rs ih =>
    rw [run_cons_none (Rule.fire?_eq_none_iff.2 (h r List.mem_cons_self))]
    exact ih fun r hr => h r (List.mem_cons_of_mem _ hr)

/-- A pass reports no rule exactly where no candidate of its rules occurs. -/
theorem applied_eq_nil_iff {rs : List (Rule α)} {s : List α} :
    (run rs s).applied = [] ↔ ∀ r ∈ rs, ¬ r.Occurs s := by
  refine ⟨fun h => ?_, fun h => by rw [run_of_not_occurs h]⟩
  induction rs with
  | nil => simp
  | cons r rs ih =>
    cases hf : r.fire? s with
    | none =>
      rw [run_cons_none hf] at h
      exact List.forall_mem_cons.2 ⟨Rule.fire?_eq_none_iff.1 hf, ih h⟩
    | some t => rw [run_cons_some hf] at h; cases h

theorem run_eq_self_iff {rs : List (Rule α)} {s : List α} :
    run rs s = ⟨s, []⟩ ↔ ∀ r ∈ rs, ¬ r.Occurs s :=
  ⟨fun h => applied_eq_nil_iff.1 (by rw [h]), run_of_not_occurs⟩

end Pass

end BundlePatch
