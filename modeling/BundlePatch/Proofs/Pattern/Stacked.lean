import BundlePatch.Proofs.Pattern.Starts

/-!
# Copies in a row

`copies g s` is the number of copies of `g` in a row at the start of `s`, and
`stacked h g s` their number directly after an occurrence of `h`, over all of these.
Around a pattern that is apart from `h` and `g`, the count splits into the part before
and the part after (`stacked_around_of_apart`); around `h` itself, the copies that
follow it come on top (`stacked_around_self`).
-/

namespace BundlePatch.Pattern

universe u

variable {α : Type u} [BEq α]

/-- The number of copies of `g` that stand one after the other at the start of the list. -/
def copies (g s : List α) : Nat :=
  if g ≠ [] ∧ g.isPrefixOf s then copies g (s.drop g.length) + 1 else 0
termination_by s.length
decreasing_by
  rename_i h
  obtain ⟨hg, hs⟩ := h
  cases g with
  | nil => exact absurd rfl hg
  | cons a g =>
    cases s with
    | nil => cases hs
    | cons b s => simp only [List.length_cons, List.length_drop]; omega

/-- The copies of `g` after `h`, if `h` begins here. -/
def copiesAfter (h g t : List α) : Nat :=
  if h.isPrefixOf t then copies g (t.drop h.length) else 0

/-- Over all occurrences of `h`, the number of copies of `g` in a row directly after it. -/
def stacked (h g s : List α) : Nat := tally (copiesAfter h g) s

variable [LawfulBEq α]

theorem copies_eq_zero {g s : List α} (h : ¬ g <+: s) : copies g s = 0 := by
  rw [copies, if_neg]
  exact fun hp => h (List.isPrefixOf_iff_prefix.1 hp.2)

theorem copies_append {g : List α} (hg : g ≠ []) (s : List α) :
    copies g (g ++ s) = copies g s + 1 := by
  rw [copies, if_pos, List.drop_left]
  exact ⟨hg, List.isPrefixOf_iff_prefix.2 (List.prefix_append g s)⟩

theorem copies_pos_iff {g s : List α} (hg : g ≠ []) : 0 < copies g s ↔ g <+: s := by
  constructor
  · intro h
    by_contra hn
    rw [copies_eq_zero hn] at h
    exact Nat.lt_irrefl 0 h
  · rintro ⟨s, rfl⟩
    rw [copies_append hg]
    exact Nat.succ_pos _

/-- A row of copies stops before a pattern that is apart from them. -/
theorem copies_around_of_apart {g x : List α} (hx : x ≠ []) (h : Apart g x) (b a : List α) :
    copies g (b ++ (x ++ a)) = copies g b := by
  have hg : g ≠ [] := h.ne_nil hx
  generalize hn : b.length = n
  induction n using Nat.strongRecOn generalizing b with
  | ind n ih =>
    by_cases hp : g <+: b
    · obtain ⟨b, rfl⟩ := hp
      have hlen : b.length < n := by
        have := List.length_pos_of_ne_nil hg
        rw [List.length_append] at hn
        omega
      rw [List.append_assoc, copies_append hg, copies_append hg, ih _ hlen b rfl]
    · rw [copies_eq_zero hp, copies_eq_zero]
      rwa [h.prefix_append_iff b a]

theorem copiesAfter_append {h g s : List α} : copiesAfter h g (h ++ s) = copies g s := by
  rw [copiesAfter, if_pos, List.drop_left]
  exact List.isPrefixOf_iff_prefix.2 (List.prefix_append h s)

theorem copiesAfter_eq_zero {h g t : List α} (hp : ¬ h <+: t) : copiesAfter h g t = 0 := by
  rw [copiesAfter, if_neg]
  exact fun hb => hp (List.isPrefixOf_iff_prefix.1 hb)

/-- Copies are left to take away exactly where `h` and `g` stand together. -/
theorem stacked_pos_iff {h g s : List α} (hg : g ≠ []) : 0 < stacked h g s ↔ h ++ g <:+: s := by
  rw [stacked, tally_pos_iff, List.infix_iff_prefix_suffix]
  refine exists_congr fun t => ?_
  rw [and_comm]
  refine and_congr_left fun _ => ?_
  by_cases hp : h <+: t
  · obtain ⟨t, rfl⟩ := hp
    rw [copiesAfter_append, copies_pos_iff hg, List.prefix_append_right_inj]
  · rw [copiesAfter_eq_zero hp]
    exact iff_of_false (Nat.lt_irrefl 0) fun hb => hp ((List.prefix_append h g).trans hb)

/-- Before `x`, what `h` and its copies see does not depend on what comes after. -/
theorem copiesAfter_around {h g x b : List α} (a : List α) (hx : x ≠ []) (hg : Apart g x)
    (hh : h <+: b ++ (x ++ a) ↔ h <+: b) :
    copiesAfter h g (b ++ (x ++ a)) = copiesAfter h g b := by
  by_cases hp : h <+: b
  · obtain ⟨b, rfl⟩ := hp
    rw [List.append_assoc, copiesAfter_append, copiesAfter_append,
      copies_around_of_apart hx hg]
  · rw [copiesAfter_eq_zero hp, copiesAfter_eq_zero (mt hh.1 hp)]

theorem stacked_append_of_not_beginsIn {h g x : List α} (hx : ¬ BeginsIn h x) (a : List α) :
    stacked h g (x ++ a) = stacked h g a :=
  tally_append_of_zero fun _ hu hs =>
    copiesAfter_eq_zero (not_prefix_of_not_beginsIn hx hu hs a)

theorem stacked_around_of_apart {h g x : List α} (hx : x ≠ []) (hh : Apart h x) (hg : Apart g x)
    (b a : List α) : stacked h g (b ++ x ++ a) = stacked h g b + stacked h g a := by
  have h0 : copiesAfter h g [] = 0 :=
    copiesAfter_eq_zero fun hp => hh.ne_nil hx (List.prefix_nil.1 hp)
  rw [List.append_assoc, stacked, tally_append h0]
  · exact congrArg _ (stacked_append_of_not_beginsIn hh.1 a)
  · exact fun u _ _ => copiesAfter_around a hx hg (hh.prefix_append_iff u a)

theorem stacked_around_self {h g : List α} (hh : h ≠ []) (hc : Clear h h) (hg : Apart g h)
    (b a : List α) :
    stacked h g (b ++ (h ++ a)) = stacked h g b + (copies g a + stacked h g a) := by
  have h0 : copiesAfter h g [] = 0 :=
    copiesAfter_eq_zero fun hp => hh (List.prefix_nil.1 hp)
  have e : stacked h g (b ++ (h ++ a)) =
      stacked h g b + (copiesAfter h g (h ++ a) + stacked h g a) := by
    refine tally_around h0 hh (fun b hb => ?_) (fun u hu hs => ?_) b
    · exact copiesAfter_around a hh hg (hc.prefix_append_iff hb a)
    · exact copiesAfter_eq_zero (not_prefix_of_not_beginsIn hc.1 hu hs a)
  rw [e, copiesAfter_append]

/-- Taking one copy away from after `h` leaves one less. -/
theorem stacked_succ {h g : List α} (hh : h ≠ []) (hc : Clear h h) (hg : Apart g h)
    (b a : List α) : stacked h g (b ++ h ++ a) + 1 = stacked h g (b ++ (h ++ g) ++ a) := by
  have hg0 : g ≠ [] := hg.ne_nil hh
  simp only [List.append_assoc]
  rw [stacked_around_self hh hc hg, stacked_around_self hh hc hg, copies_append hg0,
    stacked_append_of_not_beginsIn hg.2]
  omega

end BundlePatch.Pattern
