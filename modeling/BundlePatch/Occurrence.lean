/-!
# First occurrences

`Occurrence.first? k s` splits `s` at the first place where `k` stands.
`Occurrence.IsFirst` says what that split is without the scan. The main statements:
the scan finds exactly the first occurrence (`first?_eq_some_iff`), it finds
nothing exactly where there is none (`first?_eq_none_iff`), and a first
occurrence is unique (`IsFirst.unique`).
-/

namespace BundlePatch

universe u

/-- A place where a pattern stands in a list: what comes before it and what comes after it. -/
@[ext]
structure Occurrence (α : Type u) where
  before : List α
  after : List α
  deriving DecidableEq, Repr

namespace Occurrence

variable {α : Type u}

/-- The list with `r` in the place of the pattern. -/
def replace (o : Occurrence α) (r : List α) : List α := o.before ++ r ++ o.after

/-- `k` stands in `s` as `o` says, and starts at no earlier position. -/
structure IsFirst (k s : List α) (o : Occurrence α) : Prop where
  split : s = o.before ++ k ++ o.after
  least : ∀ n, n < o.before.length → ¬ k <+: s.drop n

theorem IsFirst.isInfix {k s : List α} {o : Occurrence α} (h : IsFirst k s o) : k <:+: s :=
  ⟨o.before, o.after, h.split.symm⟩

theorem IsFirst.unique {k s : List α} {o o' : Occurrence α} (h : IsFirst k s o)
    (h' : IsFirst k s o') : o = o' := by
  have at_split : ∀ {p : Occurrence α}, IsFirst k s p → s.drop p.before.length = k ++ p.after := by
    intro p hp
    rw [hp.split, List.append_assoc, List.drop_left]
  have len : o.before.length = o'.before.length := by
    rcases Nat.lt_trichotomy o.before.length o'.before.length with hlt | heq | hlt
    · exact absurd (at_split h ▸ List.prefix_append k o.after) (h'.least _ hlt)
    · exact heq
    · exact absurd (at_split h' ▸ List.prefix_append k o'.after) (h.least _ hlt)
  have e : o.before ++ k ++ o.after = o'.before ++ k ++ o'.after := h.split ▸ h'.split
  rw [List.append_assoc, List.append_assoc] at e
  obtain ⟨hb, hr⟩ := List.append_inj e len
  exact Occurrence.ext hb (List.append_cancel_left hr)

/-- Being the first one depends only on what comes before the end of the occurrence. -/
theorem isFirst_iff {k s : List α} {o : Occurrence α} (hk : k ≠ []) :
    IsFirst k s o ↔ s = o.before ++ k ++ o.after ∧ ¬ k <:+: o.before ++ k.dropLast := by
  have hpos : 0 < k.length := List.length_pos_iff.2 hk
  constructor
  · rintro ⟨hs, hl⟩
    refine ⟨hs, ?_⟩
    rintro ⟨u, v, e⟩
    have hlen := congrArg List.length e
    simp only [List.length_append, List.length_dropLast] at hlen
    apply hl u.length (by omega)
    have hsplit : s = u ++ (k ++ (v ++ k.getLast hk :: o.after)) := calc
      s = o.before ++ (k.dropLast ++ [k.getLast hk]) ++ o.after := by
        rw [List.dropLast_concat_getLast hk, hs]
      _ = o.before ++ k.dropLast ++ k.getLast hk :: o.after := by simp
      _ = u ++ (k ++ (v ++ k.getLast hk :: o.after)) := by rw [← e]; simp
    rw [hsplit, List.drop_left]
    exact List.prefix_append k _
  · rintro ⟨hs, hn⟩
    refine ⟨hs, fun n hlt hp => hn ?_⟩
    obtain ⟨w, hw⟩ := hp
    have hlen := congrArg List.length hs
    simp only [List.length_append] at hlen
    have hleft : s.take n ++ k <+: s := ⟨w, by rw [List.append_assoc, hw, List.take_append_drop]⟩
    have hright : o.before ++ k.dropLast <+: s := by
      rw [hs, List.append_assoc, List.prefix_append_right_inj]
      exact (List.dropLast_prefix k).trans (List.prefix_append k _)
    have hle : (s.take n ++ k).length ≤ (o.before ++ k.dropLast).length := by
      simp only [List.length_append, List.length_take, List.length_dropLast]
      omega
    exact (List.suffix_append (s.take n) k).isInfix.trans
      (List.prefix_of_prefix_length_le hleft hright hle).isInfix

theorem IsFirst.not_infix_before {k s : List α} {o : Occurrence α} (h : IsFirst k s o)
    (hk : k ≠ []) : ¬ k <:+: o.before := fun hb =>
  ((isFirst_iff hk).1 h).2 (hb.trans (List.prefix_append _ _).isInfix)

/-! ## The scan -/

variable [BEq α]

/-- `seen` holds the elements passed so far, the latest first. -/
def scan (k seen : List α) : List α → Option (Occurrence α)
  | [] => if k.isEmpty then some ⟨seen.reverse, []⟩ else none
  | c :: t =>
    if k.isPrefixOf (c :: t) then some ⟨seen.reverse, (c :: t).drop k.length⟩
    else scan k (c :: seen) t

/-- The first occurrence of `k` in `s`. The empty pattern stands at the start of every list. -/
def first? (k s : List α) : Option (Occurrence α) := scan k [] s

variable [LawfulBEq α]

theorem isFirst_of_scan {k s : List α} {o : Occurrence α} (seen : List α)
    (hs : ∀ n, n < seen.length → ¬ k <+: (seen.reverse ++ s).drop n)
    (h : scan k seen s = some o) : IsFirst k (seen.reverse ++ s) o := by
  induction s generalizing seen with
  | nil =>
    simp only [scan] at h
    split at h
    · next hk =>
      obtain rfl := Option.some.inj h
      obtain rfl := List.isEmpty_iff.1 hk
      exact ⟨by simp, by simpa using hs⟩
    · cases h
  | cons c t ih =>
    simp only [scan] at h
    split at h
    · next hk =>
      obtain rfl := Option.some.inj h
      refine ⟨?_, by simpa using hs⟩
      have := List.prefix_iff_eq_append.1 (List.isPrefixOf_iff_prefix.1 hk)
      rw [List.append_assoc, this]
    · next hk =>
      have hk : ¬ k <+: c :: t := fun hp => hk (List.isPrefixOf_iff_prefix.2 hp)
      have := ih (c :: seen) (fun n hn => ?_) h
      · simpa using this
      · rw [List.reverse_cons, List.append_assoc, List.singleton_append]
        rcases Nat.lt_succ_iff_lt_or_eq.1 hn with hn | rfl
        · exact hs n hn
        · rw [List.drop_left' (by simp)]
          exact hk

theorem scan_eq_none {k seen s : List α} (h : scan k seen s = none) : ¬ k <:+: s := by
  induction s generalizing seen with
  | nil =>
    simp only [scan] at h
    split at h
    · cases h
    · next hk => simpa [List.infix_nil, List.isEmpty_iff] using hk
  | cons c t ih =>
    simp only [scan] at h
    split at h
    · cases h
    · next hk =>
      rw [List.infix_cons_iff]
      exact fun hi => hi.elim (fun hp => hk (List.isPrefixOf_iff_prefix.2 hp)) (ih h)

theorem isFirst_of_first? {k s : List α} {o : Occurrence α} (h : first? k s = some o) :
    IsFirst k s o := by
  simpa using isFirst_of_scan [] (by simp) h

theorem first?_eq_none_iff {k s : List α} : first? k s = none ↔ ¬ k <:+: s := by
  refine ⟨scan_eq_none, fun h => ?_⟩
  cases e : first? k s with
  | none => rfl
  | some o => exact absurd (isFirst_of_first? e).isInfix h

theorem first?_eq_some_iff {k s : List α} {o : Occurrence α} :
    first? k s = some o ↔ IsFirst k s o := by
  refine ⟨isFirst_of_first?, fun h => ?_⟩
  cases e : first? k s with
  | none => exact absurd h.isInfix (first?_eq_none_iff.1 e)
  | some o' => rw [(isFirst_of_first? e).unique h]

example : first? [1, 2, 1] [0, 1, 2, 1, 2, 1] = some ⟨[0], [2, 1]⟩ := by decide

end Occurrence

end BundlePatch
