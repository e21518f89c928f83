import BundlePatch.Proofs.Rewriting.Edits
import BundlePatch.Text.Basic
import Mathlib.Logic.ExistsUnique

/-!
# What rules prescribe

`Pass.Prescribed rs s p` says what a list of rules makes of `s`, by how `s` can be split and
without looking for anything. For any rules, a pass yields that and nothing else
(`Pass.prescribed_iff`). The place of a rule that occurs is one only, whether or not its
candidates are empty or overlap themselves (`Rule.Site.unique`).
-/

namespace BundlePatch

universe u

variable {α : Type u}

/-- The rules in order, each on what the one before it left. A rule of which no candidate occurs
leaves all as it is. Else the first candidate in the list that occurs is replaced, where it
begins first. -/
inductive Pass.Prescribed : List (Rule α) → List α → Pass α → Prop where
  | done (s : List α) : Prescribed [] s ⟨s, []⟩
  | skip {r : Rule α} {rs : List (Rule α)} {s : List α} {p : Pass α} :
      (∀ k ∈ r.candidates, ¬ k <:+: s) → Prescribed rs s p → Prescribed (r :: rs) s p
  | replace {r : Rule α} {rs : List (Rule α)} {tried untried : List (List α)} {k : List α}
      {s before after : List α} {p : Pass α} : r.candidates = tried ++ k :: untried →
      (∀ k' ∈ tried, ¬ k' <:+: s) → s = before ++ k ++ after →
      (∀ n, n < before.length → ¬ k <+: s.drop n) →
      Prescribed rs (before ++ r.replacement ++ after) p →
      Prescribed (r :: rs) s ⟨p.content, r.name :: p.applied⟩

/-! ## One rule -/

variable [BEq α] [LawfulBEq α]

theorem Rule.Site.unique {r : Rule α} {s k k' : List α} {o o' : Occurrence α}
    (h : r.Site s k o) (h' : r.Site s k' o') : k = k' ∧ o = o' := by
  have e : some o = some o' :=
    (site?_eq_some_iff.2 ⟨k, h⟩).symm.trans (site?_eq_some_iff.2 ⟨k', h'⟩)
  obtain rfl := Option.some.inj e
  have hs : o.before ++ k ++ o.after = o.before ++ k' ++ o.after :=
    h.2.split.symm.trans h'.2.split
  exact ⟨List.append_cancel_left (List.append_cancel_right hs), rfl⟩

theorem Rule.existsUnique_site {r : Rule α} {s : List α} (h : r.Occurs s) :
    ∃! site : List α × Occurrence α, r.Site s site.1 site.2 := by
  cases e : r.site? s with
  | none => exact absurd h (site?_eq_none_iff.1 e)
  | some o =>
    obtain ⟨k, hs⟩ := site?_eq_some_iff.1 e
    refine ⟨(k, o), hs, ?_⟩
    rintro ⟨k', o'⟩ hs'
    obtain ⟨rfl, rfl⟩ := hs.unique hs'
    rfl

namespace Pass

theorem content_run_singleton (r : Rule α) (s : List α) :
    (run [r] s).content = s ∨ r.Edit s (run [r] s).content := by
  cases h : r.fire? s with
  | none => exact .inl (by rw [run_cons_none h, run_nil])
  | some t => exact .inr (by rw [run_cons_some h]; exact Rule.edit_of_fire? h)

/-! ## A pass -/

theorem eq_run_of_prescribed {rs : List (Rule α)} {s : List α} {p : Pass α}
    (h : Prescribed rs s p) : p = run rs s := by
  induction h with
  | done s => rfl
  | skip hn _ ih =>
    have hf : Rule.fire? _ _ = none := Rule.fire?_eq_none_iff.2 fun ⟨k, hk, hs⟩ => hn k hk hs
    rw [run_cons_none hf, ih]
  | @replace r rs tried untried k s before after p hk hn hs hleast _ ih =>
    have hsite : r.Site s k ⟨before, after⟩ := ⟨⟨tried, untried, hk, hn⟩, ⟨hs, hleast⟩⟩
    rw [run_cons_some (Rule.fire?_eq_some_iff.2 ⟨k, _, hsite, rfl⟩), ih]
    rfl

theorem prescribed_run (rs : List (Rule α)) (s : List α) : Prescribed rs s (run rs s) := by
  induction rs generalizing s with
  | nil => exact .done s
  | cons r rs ih =>
    cases h : r.fire? s with
    | none =>
      rw [run_cons_none h]
      exact .skip (fun k hk hs => Rule.fire?_eq_none_iff.1 h ⟨k, hk, hs⟩) (ih s)
    | some t =>
      obtain ⟨k, o, ⟨⟨tried, untried, hk, hn⟩, ho⟩, rfl⟩ := Rule.fire?_eq_some_iff.1 h
      rw [run_cons_some h]
      exact .replace hk hn ho.split ho.least (ih _)

theorem prescribed_iff {rs : List (Rule α)} {s : List α} {p : Pass α} :
    Prescribed rs s p ↔ p = run rs s :=
  ⟨eq_run_of_prescribed, fun h => h ▸ prescribed_run rs s⟩

end Pass

/-- For any rules, over any alphabet, a pass is what the rules prescribe. The candidate and its
place are one only, each rule changes one place or none, the rules that did are reported in order,
and a pass over two lists of rules is one over the second, on what one over the first left. -/
theorem run_as_prescribed :
    (∀ (rs : List (Rule α)) (s : List α) (p : Pass α),
      Pass.Prescribed rs s p ↔ p = Pass.run rs s) ∧
    (∀ (r : Rule α) (s : List α), r.Occurs s →
      ∃! site : List α × Occurrence α, r.Site s site.1 site.2) ∧
    (∀ (r : Rule α) (s : List α),
      (Pass.run [r] s).content = s ∨ r.Edit s (Pass.run [r] s).content) ∧
    (∀ (rs : List (Rule α)) (s : List α),
      (Pass.run rs s).applied.Sublist (rs.map Rule.name)) ∧
    ∀ (rs rs' : List (Rule α)) (s : List α),
      let p := Pass.run rs s
      let p' := Pass.run rs' p.content
      Pass.run (rs ++ rs') s = ⟨p'.content, p.applied ++ p'.applied⟩ :=
  ⟨fun _ _ _ => Pass.prescribed_iff, fun _ _ => Rule.existsUnique_site,
    Pass.content_run_singleton, Pass.applied_sublist, Pass.run_append⟩

/-- A candidate that overlaps itself and stands late comes before one that stands early, and an
empty one stands in front. -/
theorem run_as_prescribed_late_candidate :
    let late : Rule Char := ⟨"late", [['b', 'b'], ['a']], ['c']⟩
    let front : Rule Char := ⟨"front", [[]], ['d']⟩
    let s : Text := ['a', 'b', 'b', 'b']
    (∃! site : Text × Occurrence Char, late.Site s site.1 site.2) ∧
      Pass.Prescribed [late, ⟨"none", [], []⟩, front] s
        ⟨['d', 'a', 'c', 'b'], ["late", "front"]⟩ := by
  intro late front s
  have hoccurs : late.Occurs s := ⟨['b', 'b'], by simp [late], ['a'], ['b'], rfl⟩
  obtain ⟨hprescribed, hsite, -⟩ := run_as_prescribed (α := Char)
  refine ⟨hsite late s hoccurs, ?_⟩
  rw [hprescribed]
  decide

end BundlePatch
