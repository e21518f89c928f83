import BundlePatch.Catalogue

/-!
# Detectors that can be read off their closures

The parts of a detector go into its closure without any quoting, so a part may imitate what
stands after it: the one command `a")||Sp("b` is spelled like the two commands `a` and `b`. A
detector is `Legible` if no part of it does that. The closure of a legible detector tells all of
it (`closure_inj`): the variable and each command end at a letter that they do not hold
(`Text.append_cons_inj`), and the commands end where no further lookup begins
(`trials_append_inj`).
-/

namespace BundlePatch

/-- A text is cut in one way at the first `c` in it. -/
theorem Text.append_cons_inj {u v s t : Text} {c : Char} (hu : c ∉ u) (hv : c ∉ v)
    (h : u ++ c :: s = v ++ c :: t) : u = v ∧ s = t := by
  induction u generalizing v with
  | nil =>
    cases v with
    | nil => exact ⟨rfl, (List.cons.inj h).2⟩
    | cons d v =>
      obtain ⟨rfl, -⟩ := List.cons.inj h
      exact absurd List.mem_cons_self hv
  | cons d u ih =>
    cases v with
    | nil =>
      obtain ⟨rfl, -⟩ := List.cons.inj h
      exact absurd List.mem_cons_self hu
    | cons e v =>
      obtain ⟨rfl, htail⟩ := List.cons.inj h
      rw [List.mem_cons, not_or] at hu hv
      obtain ⟨rfl, hst⟩ := ih hu.2 hv.2 htail
      exact ⟨rfl, hst⟩

namespace Detector

/-! ## Legible parts -/

/-- What every lookup begins with. -/
def lookupOpening : Text := "Sp(\"".toList

/-- The variable and the commands do not hold the letter that ends them in a closure, and the
application paths do not begin like one more lookup. -/
structure Legible (d : Detector) : Prop where
  envVar : ';' ∉ d.envVar
  commands : ∀ c ∈ d.commands, '"' ∉ c
  appPaths : ¬ lookupOpening <+: d.appPaths

instance (d : Detector) : Decidable d.Legible :=
  decidable_of_iff (';' ∉ d.envVar ∧ (∀ c ∈ d.commands, '"' ∉ c) ∧ ¬ lookupOpening <+: d.appPaths)
    ⟨fun ⟨he, hc, hp⟩ => ⟨he, hc, hp⟩, fun ⟨he, hc, hp⟩ => ⟨he, hc, hp⟩⟩

/-! ## Lookups -/

theorem lookup_append (c s : Text) : lookup c ++ s = lookupOpening ++ (c ++ '"' :: ')' :: s) := by
  have hclose : "\")".toList = ['"', ')'] := by decide
  unfold lookup lookupOpening
  simp only [hclose, List.append_assoc, List.cons_append, List.nil_append]

theorem bar_append_ne_lookup_append (c s t : Text) : "||".toList ++ s ≠ lookup c ++ t := by
  rw [lookup_append]
  simp [lookupOpening]

theorem lookup_append_inj {c c' s s' : Text} (hc : '"' ∉ c) (hc' : '"' ∉ c')
    (h : lookup c ++ s = lookup c' ++ s') : c = c' ∧ s = s' := by
  rw [lookup_append, lookup_append] at h
  obtain ⟨rfl, hs⟩ := Text.append_cons_inj hc hc' (List.append_cancel_left h)
  exact ⟨rfl, (List.cons.inj hs).2⟩

/-- The lookups of all commands, each with a bar after it. -/
def trials (commands : List Text) : Text :=
  commands.flatMap fun c => lookup c ++ "||".toList

theorem trials_cons_append (c : Text) (cs : List Text) (s : Text) :
    trials (c :: cs) ++ s = lookup c ++ ("||".toList ++ (trials cs ++ s)) := by
  simp [trials]

theorem lookups_cons_append (c : Text) (cs : List Text) :
    lookups (c :: cs) ++ "||".toList = trials (c :: cs) := by
  induction cs generalizing c with
  | nil => simp [lookups, trials]
  | cons d cs ih =>
    calc lookups (c :: d :: cs) ++ "||".toList
        = lookup c ++ "||".toList ++ (lookups (d :: cs) ++ "||".toList) := by
          simp only [lookups, List.map_cons, List.intercalate_cons_cons, List.append_assoc]
      _ = lookup c ++ "||".toList ++ trials (d :: cs) := by rw [ih]
      _ = trials (c :: d :: cs) := rfl

section

variable {cs cs' : List Text} {p p' : Text}

/-- The commands are told apart from what stands after them. -/
theorem trials_append_inj (hcs : ∀ c ∈ cs, '"' ∉ c) (hcs' : ∀ c ∈ cs', '"' ∉ c)
    (hp : ¬ lookupOpening <+: p) (hp' : ¬ lookupOpening <+: p')
    (h : trials cs ++ p = trials cs' ++ p') : cs = cs' ∧ p = p' := by
  induction cs generalizing cs' with
  | nil =>
    cases cs' with
    | nil => exact ⟨rfl, h⟩
    | cons c' cs' =>
      -- else `p` would begin with the lookup of `c'`
      rw [trials_cons_append, lookup_append] at h
      exact absurd ⟨_, h.symm⟩ hp
  | cons c cs ih =>
    cases cs' with
    | nil =>
      rw [trials_cons_append, lookup_append] at h
      exact absurd ⟨_, h⟩ hp'
    | cons c' cs' =>
      rw [trials_cons_append, trials_cons_append] at h
      rw [List.forall_mem_cons] at hcs hcs'
      obtain ⟨rfl, hrest⟩ := lookup_append_inj hcs.1 hcs'.1 h
      obtain ⟨rfl, rfl⟩ := ih hcs.2 hcs'.2 (List.append_cancel_left hrest)
      exact ⟨rfl, rfl⟩

/-- Without commands there is a bar in front, where else a lookup begins. -/
theorem lookups_append_inj (hcs : ∀ c ∈ cs, '"' ∉ c) (hcs' : ∀ c ∈ cs', '"' ∉ c)
    (hp : ¬ lookupOpening <+: p) (hp' : ¬ lookupOpening <+: p')
    (h : lookups cs ++ "||".toList ++ p = lookups cs' ++ "||".toList ++ p') :
    cs = cs' ∧ p = p' := by
  cases cs with
  | nil =>
    cases cs' with
    | nil => exact ⟨rfl, List.append_cancel_left h⟩
    | cons c' cs' =>
      rw [lookups_cons_append, trials_cons_append] at h
      exact absurd h (bar_append_ne_lookup_append c' _ _)
  | cons c cs =>
    cases cs' with
    | nil =>
      rw [lookups_cons_append, trials_cons_append] at h
      exact absurd h.symm (bar_append_ne_lookup_append c _ _)
    | cons c' cs' =>
      rw [lookups_cons_append, lookups_cons_append] at h
      exact trials_append_inj hcs hcs' hp hp' h

end

/-! ## Closures -/

/-- The parts of a detector in its closure, with the semicolon that ends the variable. -/
theorem exists_closure_eq : ∃ opening test ending : Text, ∀ d : Detector,
    d.closure = opening ++ (d.envVar ++ ';' ::
      (test ++ (lookups d.commands ++ "||".toList ++ d.appPaths ++ ending))) := by
  obtain ⟨test, htest⟩ : ∃ test, Text.ofPieces
      [";if(i&&i.trim()&&Ee.existsSync(i.trim()))return i.trim();", "return "] = ';' :: test :=
    ⟨_, rfl⟩
  refine ⟨"detect:()=>\x7bvar i=process.env.".toList, test, "\x7d".toList, fun d => ?_⟩
  unfold closure
  rw [htest]
  simp only [List.append_assoc, List.cons_append]

/-- Two legible detectors have the same closure only if they have the same variable, the same
commands in the same order and the same application paths. -/
theorem closure_inj {d d' : Detector} (hd : d.Legible) (hd' : d'.Legible) :
    d.closure = d'.closure ↔ d = d' := by
  refine ⟨fun h => ?_, congrArg closure⟩
  obtain ⟨opening, test, ending, hshape⟩ := exists_closure_eq
  obtain ⟨e, cs, p⟩ := d
  obtain ⟨e', cs', p'⟩ := d'
  obtain ⟨he, hcs, hp⟩ := hd
  obtain ⟨he', hcs', hp'⟩ := hd'
  rw [hshape, hshape] at h
  obtain ⟨rfl, hrest⟩ := Text.append_cons_inj he he' (List.append_cancel_left h)
  have hsearch : lookups cs ++ "||".toList ++ p = lookups cs' ++ "||".toList ++ p' :=
    List.append_cancel_right (List.append_cancel_left hrest)
  obtain ⟨rfl, rfl⟩ := lookups_append_inj hcs hcs' hp hp' hsearch
  rfl

/-- Application paths that hold a lookup after a blank, beside a second command. -/
theorem closure_inj_later_lookup :
    let d : Detector := ⟨"HOME".toList, ["a".toList], " Sp(\"b\")||sn([])".toList⟩
    let d' : Detector := ⟨"HOME".toList, ["a".toList, "b".toList], "sn([])".toList⟩
    d.Legible ∧ d'.Legible ∧ d.closure ≠ d'.closure := by
  intro d d'
  have hd : d.Legible := by decide
  have hd' : d'.Legible := by decide
  exact ⟨hd, hd', fun h => absurd ((closure_inj hd hd').1 h) (by decide)⟩

/-- A quotation mark in a command can end it early. -/
example : lookups ["a\")||Sp(\"b".toList] = lookups ["a".toList, "b".toList] := by decide

end Detector

end BundlePatch
