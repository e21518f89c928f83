import BundlePatch.Occurrence

/-!
# Rules and passes

A rule replaces one literal pattern. It may list several candidates: the first one in
the list that occurs anywhere is replaced, at its first occurrence, and nothing else is
touched. A pass tries each rule of a list once, in order, each on what the ones before
it left. Both work over any alphabet, so texts and their encodings are treated alike.
The main statements: a rule leaves a list alone exactly where none of its candidates
occurs (`fire?_eq_none_iff`), and else splits it at the first occurrence of the chosen
candidate (`Site`, `fire?_eq_some_iff`); a pass over two lists of rules is one pass
after the other (`Pass.run_append`).
-/

namespace BundlePatch

universe u

/-- A named substitution: the patterns to look for, in order of preference, and what replaces the
one found. -/
structure Rule (α : Type u) where
  name : String
  candidates : List (List α)
  replacement : List α
  deriving DecidableEq, Repr

namespace Rule

variable {α : Type u}

/-- Some candidate of the rule stands in `s`. -/
def Occurs (r : Rule α) (s : List α) : Prop := ∃ k ∈ r.candidates, k <:+: s

instance decidableOccurs {α : Type} [DecidableEq α] (r : Rule α) (s : List α) :
    Decidable (r.Occurs s) :=
  inferInstanceAs (Decidable (∃ k ∈ r.candidates, k <:+: s))

/-- `k` is the first candidate in the list that stands in `s`, and `o` its first occurrence. -/
def Site (r : Rule α) (s k : List α) (o : Occurrence α) : Prop :=
  (∃ tried untried, r.candidates = tried ++ k :: untried ∧ ∀ k' ∈ tried, ¬ k' <:+: s) ∧
    Occurrence.IsFirst k s o

theorem Site.mem {r : Rule α} {s k : List α} {o : Occurrence α} (h : r.Site s k o) :
    k ∈ r.candidates := by
  obtain ⟨⟨tried, untried, hk, -⟩, -⟩ := h
  simp [hk]

theorem Site.occurs {r : Rule α} {s k : List α} {o : Occurrence α} (h : r.Site s k o) :
    r.Occurs s :=
  ⟨k, h.mem, h.2.isInfix⟩

variable [BEq α]

/-- The occurrence that the rule replaces. -/
def site? (r : Rule α) (s : List α) : Option (Occurrence α) :=
  r.candidates.findSome? (Occurrence.first? · s)

/-- The list after the rule has fired, or `none` if it does not fire. -/
def fire? (r : Rule α) (s : List α) : Option (List α) :=
  (r.site? s).map (·.replace r.replacement)

variable [LawfulBEq α]

theorem site?_eq_none_iff {r : Rule α} {s : List α} : r.site? s = none ↔ ¬ r.Occurs s := by
  simp [site?, Occurs, Occurrence.first?_eq_none_iff]

theorem site?_eq_some_iff {r : Rule α} {s : List α} {o : Occurrence α} :
    r.site? s = some o ↔ ∃ k, r.Site s k o := by
  simp only [site?, List.findSome?_eq_some_iff, Occurrence.first?_eq_some_iff,
    Occurrence.first?_eq_none_iff, Site]
  constructor
  · rintro ⟨tried, k, untried, h, ho, hn⟩
    exact ⟨k, ⟨tried, untried, h, hn⟩, ho⟩
  · rintro ⟨k, ⟨tried, untried, h, hn⟩, ho⟩
    exact ⟨tried, k, untried, h, ho, hn⟩

theorem fire?_eq_none_iff {r : Rule α} {s : List α} : r.fire? s = none ↔ ¬ r.Occurs s := by
  rw [fire?, Option.map_eq_none_iff, site?_eq_none_iff]

theorem fire?_eq_some_iff {r : Rule α} {s t : List α} :
    r.fire? s = some t ↔ ∃ k o, r.Site s k o ∧ t = o.replace r.replacement := by
  rw [fire?, Option.map_eq_some_iff]
  simp only [site?_eq_some_iff]
  constructor
  · rintro ⟨o, ⟨k, h⟩, rfl⟩
    exact ⟨k, o, h, rfl⟩
  · rintro ⟨k, o, h, rfl⟩
    exact ⟨o, ⟨k, h⟩, rfl⟩

/-- The order of the candidates decides, not their places in the list. -/
example : Rule.fire? ⟨"late", [[3], [1]], []⟩ [1, 2, 3] = some [1, 2] := by decide

end Rule

/-! ## Passes -/

/-- What a pass leaves: the edited list and the names of the rules that fired, in order. -/
structure Pass (α : Type u) where
  content : List α
  applied : List String
  deriving DecidableEq, Repr

namespace Pass

variable {α : Type u} [BEq α]

/-- Tries each rule once, on what the rules before it left. -/
def run : List (Rule α) → List α → Pass α
  | [], s => ⟨s, []⟩
  | r :: rs, s =>
    match r.fire? s with
    | none => run rs s
    | some t =>
      let p := run rs t
      ⟨p.content, r.name :: p.applied⟩

/-- `n` passes, each on what the one before it left. -/
def successive (rules : List (Rule α)) : Nat → List α → List (Pass α)
  | 0, _ => []
  | n + 1, s =>
    let p := run rules s
    p :: successive rules n p.content

theorem run_nil (s : List α) : run [] s = ⟨s, []⟩ := rfl

theorem run_cons_none {r : Rule α} {rs : List (Rule α)} {s : List α} (h : r.fire? s = none) :
    run (r :: rs) s = run rs s := by
  rw [run, h]

theorem run_cons_some {r : Rule α} {rs : List (Rule α)} {s t : List α} (h : r.fire? s = some t) :
    run (r :: rs) s = ⟨(run rs t).content, r.name :: (run rs t).applied⟩ := by
  rw [run, h]

theorem run_append (rs rs' : List (Rule α)) (s : List α) :
    run (rs ++ rs') s = ⟨(run rs' (run rs s).content).content,
      (run rs s).applied ++ (run rs' (run rs s).content).applied⟩ := by
  induction rs generalizing s with
  | nil => rfl
  | cons r rs ih =>
    rw [List.cons_append]
    cases h : r.fire? s with
    | none => rw [run_cons_none h, run_cons_none h, ih]
    | some t => rw [run_cons_some h, run_cons_some h, ih]; rfl

theorem applied_sublist (rs : List (Rule α)) (s : List α) :
    (run rs s).applied.Sublist (rs.map Rule.name) := by
  induction rs generalizing s with
  | nil => exact List.Sublist.refl _
  | cons r rs ih =>
    rw [List.map_cons]
    cases h : r.fire? s with
    | none => rw [run_cons_none h]; exact (ih s).cons _
    | some t => rw [run_cons_some h]; exact (ih t).cons_cons _

end Pass

end BundlePatch
