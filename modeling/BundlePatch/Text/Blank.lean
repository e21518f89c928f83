import BundlePatch.Text.Basic

/-!
# Blank text

`Text.trim` removes the blank code points at both ends. The main statements: what is
removed is blank (`trim_split`), what is left neither starts nor ends with a blank
(`isBlank_head_trim`, `isBlank_getLast_trim`), and nothing is left exactly where all is
blank (`trim_eq_nil_iff`).
-/

namespace BundlePatch

/-- The ranges of the blank code points: the controls TAB to CR and FS to US, the spaces of
Unicode, and the line and paragraph separators. -/
def blankRanges : List (Nat × Nat) :=
  [(0x09, 0x0D), (0x1C, 0x20), (0x85, 0x85), (0xA0, 0xA0), (0x1680, 0x1680), (0x2000, 0x200A),
    (0x2028, 0x2029), (0x202F, 0x202F), (0x205F, 0x205F), (0x3000, 0x3000)]

def isBlank (c : Char) : Bool := blankRanges.any fun r => r.1 ≤ c.toNat && c.toNat ≤ r.2

namespace Text

def trimStart (t : Text) : Text := t.dropWhile isBlank

def trimEnd (t : Text) : Text := (trimStart t.reverse).reverse

def trim (t : Text) : Text := trimEnd (trimStart t)

theorem trimStart_split (t : Text) :
    ∃ w, t = w ++ trimStart t ∧ ∀ c ∈ w, isBlank c = true :=
  ⟨t.takeWhile isBlank, List.takeWhile_append_dropWhile.symm, fun c hc => by
    have := List.all_takeWhile (p := isBlank) (l := t)
    exact List.all_eq_true.1 this c hc⟩

theorem trimEnd_split (t : Text) : ∃ w, t = trimEnd t ++ w ∧ ∀ c ∈ w, isBlank c = true := by
  obtain ⟨w, hw, hb⟩ := trimStart_split t.reverse
  refine ⟨w.reverse, ?_, by simpa using hb⟩
  rw [trimEnd, ← List.reverse_append, ← hw, List.reverse_reverse]

theorem trim_split (t : Text) : ∃ w w', t = w ++ trim t ++ w' ∧ (∀ c ∈ w, isBlank c = true) ∧
    ∀ c ∈ w', isBlank c = true := by
  obtain ⟨w, hw, hb⟩ := trimStart_split t
  obtain ⟨w', hw', hb'⟩ := trimEnd_split (trimStart t)
  refine ⟨w, w', ?_, hb, hb'⟩
  rw [trim, List.append_assoc, ← hw', ← hw]

theorem isBlank_head_trimStart {t rest : Text} {c : Char} (h : trimStart t = c :: rest) :
    isBlank c = false := by
  have := List.head?_dropWhile_not isBlank t
  rw [← trimStart, h] at this
  simpa using this

theorem isBlank_getLast_trim {t rest : Text} {c : Char} (h : trim t = rest ++ [c]) :
    isBlank c = false := by
  suffices h : trimStart (trimStart t).reverse = c :: rest.reverse from isBlank_head_trimStart h
  rw [← List.reverse_reverse (trimStart (trimStart t).reverse), ← trimEnd, ← trim, h]
  simp

theorem isBlank_head_trim {t rest : Text} {c : Char} (h : trim t = c :: rest) :
    isBlank c = false := by
  obtain ⟨w, hw, _⟩ := trimEnd_split (trimStart t)
  rw [← trim, h] at hw
  exact isBlank_head_trimStart hw

theorem trim_eq_nil_iff {t : Text} : trim t = [] ↔ ∀ c ∈ t, isBlank c = true := by
  constructor
  · intro h c hc
    obtain ⟨w, w', ht, hw, hw'⟩ := trim_split t
    rw [h, List.append_nil] at ht
    rw [ht, List.mem_append] at hc
    exact hc.elim (hw c) (hw' c)
  · intro h
    obtain ⟨w, w', ht, -, -⟩ := trim_split t
    cases e : trim t with
    | nil => rfl
    | cons c rest =>
      have hc : c ∈ t := by rw [ht, e]; simp
      exact absurd (h c hc) (by simp [isBlank_head_trim e])

end Text

end BundlePatch
