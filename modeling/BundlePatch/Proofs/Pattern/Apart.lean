import Mathlib.Data.List.Infix

/-!
# Patterns that keep apart

`BeginsIn k x`: an occurrence of `k` may begin inside an occurrence of `x`, given
the right elements after `x`. Two patterns are `Clear` if their occurrences never
share an element unless they begin at the same place, and `Apart` if they never
share one at all. All three are decided by looking at the patterns alone.

The main statements say what this means for a list in which `x` stands: `k` begins
before `x` exactly where it begins in the part before `x` (`Apart.prefix_append_iff`),
no `k` begins inside `x` (`not_prefix_of_not_beginsIn`), two occurrences are at
the same place or one is after the other (`Clear.places`), and `k` occurs exactly where
it occurs on one side of `x` (`Apart.infix_around_iff`).
-/

namespace BundlePatch.Pattern

universe u

variable {α : Type u}

/-- One of the lists is a prefix of the other. -/
def Agree (s t : List α) : Prop := s <+: t ∨ t <+: s

theorem Agree.refl (s : List α) : Agree s s := .inl (List.prefix_refl s)

theorem Agree.symm {s t : List α} (h : Agree s t) : Agree t s := Or.symm h

theorem agree_of_prefixes {s t l : List α} (hs : s <+: l) (ht : t <+: l) : Agree s t :=
  List.prefix_or_prefix_of_prefix hs ht

/-- What agrees with a list agrees with each prefix of it. -/
theorem Agree.of_prefix {s s' t : List α} (h : Agree s t) (hs : s' <+: s) : Agree s' t := by
  rcases h with h | h
  · exact .inl (hs.trans h)
  · exact agree_of_prefixes hs h

theorem agree_cons_iff {a b : α} {s t : List α} :
    Agree (a :: s) (b :: t) ↔ a = b ∧ Agree s t := by
  simp only [Agree, List.cons_prefix_cons]
  constructor
  · rintro (⟨rfl, h⟩ | ⟨rfl, h⟩)
    · exact ⟨rfl, .inl h⟩
    · exact ⟨rfl, .inr h⟩
  · rintro ⟨rfl, h | h⟩
    · exact .inl ⟨rfl, h⟩
    · exact .inr ⟨rfl, h⟩

/-- `k` can begin at some element of `x`: it agrees with what stands from there on. -/
def BeginsIn (k x : List α) : Prop := ∃ u, u ≠ [] ∧ u <:+ x ∧ Agree k u

theorem not_beginsIn_nil (k : List α) : ¬ BeginsIn k [] := by
  rintro ⟨u, hu, h, -⟩
  exact hu (List.suffix_nil.1 h)

theorem beginsIn_cons_iff {k x : List α} {a : α} :
    BeginsIn k (a :: x) ↔ Agree k (a :: x) ∨ BeginsIn k x := by
  simp only [BeginsIn, List.suffix_cons_iff]
  constructor
  · rintro ⟨u, hu, rfl | h, hk⟩
    · exact .inl hk
    · exact .inr ⟨u, hu, h, hk⟩
  · rintro (hk | ⟨u, hu, h, hk⟩)
    · exact ⟨a :: x, by simp, .inl rfl, hk⟩
    · exact ⟨u, hu, .inr h, hk⟩

theorem BeginsIn.of_suffix {k x y : List α} (h : BeginsIn k x) (hx : x <:+ y) : BeginsIn k y := by
  obtain ⟨u, hu, hs, hk⟩ := h
  exact ⟨u, hu, hs.trans hx, hk⟩

theorem BeginsIn.of_prefix {k k' x : List α} (h : BeginsIn k x) (hk : k' <+: k) :
    BeginsIn k' x := by
  obtain ⟨u, hu, hs, ha⟩ := h
  exact ⟨u, hu, hs, ha.of_prefix hk⟩

theorem beginsIn_append {k x y : List α} (h : BeginsIn k (x ++ y)) :
    BeginsIn k x ∨ BeginsIn k y := by
  obtain ⟨u, hu, ⟨p, hp⟩, hk⟩ := h
  rcases List.append_eq_append_iff.1 hp with ⟨m, hx, rfl⟩ | ⟨m, -, hy⟩
  · by_cases hm : m = []
    · exact .inr ⟨m ++ y, hu, by rw [hm, List.nil_append], hk⟩
    · exact .inl ⟨m, hm, ⟨p, hx.symm⟩, (hk.symm.of_prefix (List.prefix_append m y)).symm⟩
  · exact .inr ⟨u, hu, ⟨m, hy.symm⟩, hk⟩

/-! ## Deciding it -/

section Decide

variable [BEq α]

def agrees : List α → List α → Bool
  | a :: s, b :: t => a == b && agrees s t
  | _, _ => true

def beginsIn (k : List α) : List α → Bool
  | [] => false
  | a :: x => agrees k (a :: x) || beginsIn k x

variable [LawfulBEq α]

theorem agrees_iff {s t : List α} : agrees s t = true ↔ Agree s t := by
  induction s generalizing t with
  | nil => simp [agrees, Agree]
  | cons a s ih =>
    cases t with
    | nil => simp [agrees, Agree]
    | cons b t => simp only [agrees, Bool.and_eq_true, beq_iff_eq, ih, agree_cons_iff]

theorem beginsIn_iff {k x : List α} : beginsIn k x = true ↔ BeginsIn k x := by
  induction x with
  | nil => simpa [beginsIn] using not_beginsIn_nil k
  | cons a x ih => simp only [beginsIn, Bool.or_eq_true, agrees_iff, ih, beginsIn_cons_iff]

instance (k x : List α) : Decidable (BeginsIn k x) := decidable_of_iff _ beginsIn_iff

end Decide

/-! ## Clear and apart -/

/-- Occurrences of the two do not overlap, unless they begin at the same place. -/
def Clear (k x : List α) : Prop := ¬ BeginsIn k x.tail ∧ ¬ BeginsIn x k.tail

/-- Occurrences of the two do not overlap. -/
def Apart (k x : List α) : Prop := ¬ BeginsIn k x ∧ ¬ BeginsIn x k

instance [BEq α] [LawfulBEq α] (k x : List α) : Decidable (Clear k x) :=
  inferInstanceAs (Decidable (_ ∧ _))

instance [BEq α] [LawfulBEq α] (k x : List α) : Decidable (Apart k x) :=
  inferInstanceAs (Decidable (_ ∧ _))

theorem Apart.symm {k x : List α} (h : Apart k x) : Apart x k := ⟨h.2, h.1⟩

theorem Apart.clear {k x : List α} (h : Apart k x) : Clear k x :=
  ⟨fun hb => h.1 (hb.of_suffix (List.tail_suffix x)),
    fun hb => h.2 (hb.of_suffix (List.tail_suffix k))⟩

theorem Apart.not_agree {k x : List α} (h : Apart k x) (hx : x ≠ []) : ¬ Agree k x :=
  fun ha => h.1 ⟨x, hx, List.suffix_refl x, ha⟩

theorem Apart.ne_nil {k x : List α} (h : Apart k x) (hx : x ≠ []) : k ≠ [] := by
  rintro rfl
  exact h.not_agree hx (.inl List.nil_prefix)

theorem Apart.append {k x y : List α} (hx : Apart k x) (hy : Apart k y) : Apart k (x ++ y) := by
  refine ⟨fun h => ?_, fun h => hx.2 (h.of_prefix (List.prefix_append x y))⟩
  rcases beginsIn_append h with h | h
  · exact hx.1 h
  · exact hy.1 h

/-- A pattern that is clear of itself stays so when something is added that it is apart from. -/
theorem Clear.append_self {x y : List α} (hx : Clear x x) (hy : Apart x y) :
    Clear (x ++ y) (x ++ y) := by
  suffices h : ¬ BeginsIn (x ++ y) (x ++ y).tail from ⟨h, h⟩
  intro h
  have hb : BeginsIn x (x ++ y).tail := h.of_prefix (List.prefix_append x y)
  cases x with
  | nil =>
    obtain ⟨u, hu, hs, -⟩ := hb
    exact hy.1 ⟨u, hu, hs.trans (List.tail_suffix y), .inl List.nil_prefix⟩
  | cons a x =>
    rcases beginsIn_append (x := x) hb with hb | hb
    · exact hx.1 hb
    · exact hy.1 hb

/-! ## Occurrences -/

/-- What begins in `b ++ l` lies in `b` or reaches into `l`. -/
theorem prefix_or_reaches {k b l : List α} (h : k <+: b ++ l) :
    k <+: b ∨ ∃ u, u ≠ [] ∧ k = b ++ u ∧ u <+: l := by
  rcases List.prefix_or_prefix_of_prefix h (List.prefix_append b l) with hb | ⟨u, rfl⟩
  · exact .inl hb
  · by_cases hu : u = []
    · exact .inl (by simp [hu])
    · exact .inr ⟨u, hu, rfl, (List.prefix_append_right_inj b).1 h⟩

theorem Apart.prefix_append_iff {k x : List α} (h : Apart k x) (b a : List α) :
    k <+: b ++ (x ++ a) ↔ k <+: b := by
  refine ⟨fun hk => ?_, fun hk => hk.trans (List.prefix_append b _)⟩
  rcases prefix_or_reaches hk with hk | ⟨u, hu, rfl, hx⟩
  · exact hk
  · refine absurd ⟨u, hu, List.suffix_append b u, ?_⟩ h.2
    exact agree_of_prefixes (List.prefix_append x a) hx

/-- Before `x`, clear is as good as apart. -/
theorem Clear.prefix_append_iff {k x : List α} (h : Clear k x) {b : List α} (hb : b ≠ [])
    (a : List α) : k <+: b ++ (x ++ a) ↔ k <+: b := by
  refine ⟨fun hk => ?_, fun hk => hk.trans (List.prefix_append b _)⟩
  rcases prefix_or_reaches hk with hk | ⟨u, hu, rfl, hx⟩
  · exact hk
  · obtain ⟨c, b, rfl⟩ := List.exists_cons_of_ne_nil hb
    refine absurd ⟨u, hu, List.suffix_append b u, ?_⟩ h.2
    exact agree_of_prefixes (List.prefix_append x a) hx

theorem not_prefix_of_not_beginsIn {k x u : List α} (h : ¬ BeginsIn k x) (hu : u ≠ [])
    (hs : u <:+ x) (a : List α) : ¬ k <+: u ++ a :=
  fun hk => h ⟨u, hu, hs, agree_of_prefixes hk (List.prefix_append u a)⟩

/-- If `k'` stands `d` elements after `k` and cannot begin inside it, then it begins with `k` or
after `k`. -/
theorem eq_nil_or_append_of_append_eq {k k' d a a' : List α} (h : ¬ BeginsIn k' k.tail)
    (e : k ++ a = d ++ (k' ++ a')) : d = [] ∨ ∃ m, d = k ++ m ∧ a = m ++ (k' ++ a') := by
  rcases List.append_eq_append_iff.1 e with ⟨m, hd, ha⟩ | ⟨u, rfl, hk⟩
  · exact .inr ⟨m, hd, ha⟩
  · cases d with
    | nil => exact .inl rfl
    | cons c d =>
      by_cases hu : u = []
      · subst hu
        exact .inr ⟨[], by simp, by simpa using hk.symm⟩
      · refine absurd ⟨u, hu, List.suffix_append d u, ?_⟩ h
        exact agree_of_prefixes (hk ▸ List.prefix_append k' a') (List.prefix_append u a)

/-- Two occurrences of clear patterns in one list begin at the same place, or one is after the
other. -/
theorem Clear.places {k k' b a b' a' : List α} (h : Clear k k')
    (e : b ++ k ++ a = b' ++ k' ++ a') :
    (b = b' ∧ k ++ a = k' ++ a') ∨ (∃ m, b' = b ++ k ++ m ∧ a = m ++ k' ++ a') ∨
      ∃ m, b = b' ++ k' ++ m ∧ a' = m ++ k ++ a := by
  simp only [List.append_assoc] at e ⊢
  rcases List.append_eq_append_iff.1 e with ⟨d, rfl, hd⟩ | ⟨d, rfl, hd⟩
  · rcases eq_nil_or_append_of_append_eq h.2 hd with rfl | ⟨m, rfl, rfl⟩
    · exact .inl ⟨by simp, by simpa using hd⟩
    · exact .inr (.inl ⟨m, rfl, rfl⟩)
  · rcases eq_nil_or_append_of_append_eq h.1 hd with rfl | ⟨m, rfl, rfl⟩
    · exact .inl ⟨by simp, by simpa using hd.symm⟩
    · exact .inr (.inr ⟨m, rfl, rfl⟩)

/-- Of two occurrences of patterns that are apart, one is after the other. -/
theorem Apart.places {k k' b a b' a' : List α} (h : Apart k k') (hk' : k' ≠ [])
    (e : b ++ k ++ a = b' ++ k' ++ a') :
    (∃ m, b' = b ++ k ++ m ∧ a = m ++ k' ++ a') ∨ ∃ m, b = b' ++ k' ++ m ∧ a' = m ++ k ++ a := by
  refine (h.clear.places e).resolve_left fun ⟨_, hka⟩ => h.not_agree hk' ?_
  exact agree_of_prefixes (List.prefix_append k a) (hka ▸ List.prefix_append k' a')

/-- Around `x`, there are two sides where `k` may stand. -/
theorem Apart.infix_around_iff {k x : List α} (h : Apart k x) (hx : x ≠ []) {b a : List α} :
    k <:+: b ++ x ++ a ↔ k <:+: b ∨ k <:+: a := by
  constructor
  · rintro ⟨b', a', e⟩
    rcases h.places hx e with ⟨m, rfl, -⟩ | ⟨m, -, rfl⟩
    · exact .inl ⟨b', m, rfl⟩
    · exact .inr ⟨m, a', rfl⟩
  · rintro (hk | hk)
    · exact hk.trans ⟨[], x ++ a, by simp⟩
    · exact hk.trans ⟨b ++ x, [], by simp⟩

end BundlePatch.Pattern
