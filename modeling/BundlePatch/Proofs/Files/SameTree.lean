import BundlePatch.Files.Store

/-!
# Stores that differ in contents only

Where a path leads depends on the files and directories that are there, not on what the files
hold (`SameTree.leadsTo_eq`).
-/

namespace BundlePatch.Store

/-- The path leads to the file at the location. -/
def leadsTo (s : Store) (path : Text) (l : Location) : Bool :=
  match s.spot path with
  | .ok (.file l' _) => l' = l
  | _ => false

theorem leadsTo_iff {s : Store} {path : Text} {l : Location} :
    s.leadsTo path l = true ↔ ∃ b, s.spot path = .ok (.file l b) := by
  unfold leadsTo
  cases s.spot path with
  | error e => simp
  | ok p => cases p <;> simp

/-- There are many ways to a file: by its name, over the parent, from the root, and over the root,
which is its own parent. -/
example :
    let w := Location.root.child ['w']
    let a := w.child ['a']
    let s : Store := ⟨w, [(a, [])], []⟩
    ["a", "../w/a", "/w/./a", "../../w/a"].all fun path => s.leadsTo path.toList a := by
  decide +kernel

theorem spot_of_leadsTo {s : Store} {path : Text} {l : Location} {b : Bytes}
    (hl : s.leadsTo path l) (hb : s.get? l = some b) : s.spot path = .ok (.file l b) := by
  obtain ⟨b', hspot⟩ := leadsTo_iff.1 hl
  obtain rfl : b' = b := Option.some.inj ((get?_of_spot hspot).symm.trans hb)
  exact hspot

/-- The same files and directories are there, in the same order, seen from the same directory. -/
structure SameTree (s s' : Store) : Prop where
  here : s'.here = s.here
  locations : s'.locations = s.locations
  directories : s'.directories = s.directories

theorem SameTree.refl (s : Store) : SameTree s s := ⟨rfl, rfl, rfl⟩

theorem SameTree.symm {s s' : Store} (h : SameTree s s') : SameTree s' s :=
  ⟨h.here.symm, h.locations.symm, h.directories.symm⟩

theorem SameTree.trans {s t u : Store} (h : SameTree s t) (h' : SameTree t u) : SameTree s u :=
  ⟨h'.here.trans h.here, h'.locations.trans h.locations, h'.directories.trans h.directories⟩

theorem isSome_get?_iff {s : Store} {l : Location} : (s.get? l).isSome ↔ l ∈ s.locations := by
  obtain ⟨_, files, _⟩ := s
  simp only [get?, locations]
  induction files with
  | nil => simp [lookup]
  | cons f files ih =>
    by_cases h : f.1 = l
    · simp [lookup, h]
    · simp [lookup, h, ih, Ne.symm h]

namespace SameTree

variable {s s' : Store}

theorem isSome_get?_eq (h : SameTree s s') (l : Location) :
    (s'.get? l).isSome = (s.get? l).isSome := by
  rw [Bool.eq_iff_iff, isSome_get?_iff, isSome_get?_iff, h.locations]

theorem isDirectory_eq (h : SameTree s s') (l : Location) :
    s'.isDirectory l = s.isDirectory l := by
  rw [isDirectory, isDirectory, h.here, h.directories]

theorem start_eq (h : SameTree s s') (path : Text) : s'.start path = s.start path := by
  rw [start, start, h.here]

theorem entry_of_file (h : SameTree s s') {l : Location} {b : Bytes} (he : s.entry l = .file b) :
    ∃ b', s'.entry l = .file b' := by
  have hs : (s'.get? l).isSome := by
    rw [h.isSome_get?_eq, get?_of_entry he]
    rfl
  obtain ⟨b', hb'⟩ := Option.isSome_iff_exists.1 hs
  exact ⟨b', by rw [entry, hb']⟩

theorem entry_of_directory (h : SameTree s s') {l : Location} (he : s.entry l = .directory) :
    s'.entry l = .directory := by
  unfold entry at he ⊢
  cases hg : s.get? l with
  | some b => rw [hg] at he; cases he
  | none =>
    have hn : s'.get? l = none := by
      rw [← Option.not_isSome_iff_eq_none, h.isSome_get?_eq, hg]
      simp
    rw [hg] at he
    rw [hn, h.isDirectory_eq]
    exact he

/-- The walk passes directories only, so it does not see what the files hold. -/
theorem walk_file (h : SameTree s s') {dir : Location} {cs : List Text} {l : Location}
    {b : Bytes} (hw : s.walk dir cs = .ok (.file l b)) :
    ∃ b', s'.walk dir cs = .ok (.file l b') := by
  fun_induction walk s dir cs with
  | case1 => cases hw
  | case2 dir c rest hc ih =>
    rw [walk_of_skipped _ _ hc]
    exact ih hw
  | case3 dir rest hc ih =>
    rw [walk_up]
    exact ih hw
  | case5 dir c hc hup hlen b' he =>
    cases hw
    obtain ⟨b', he'⟩ := h.entry_of_file he
    rw [walk_name _ _ hc hup hlen, he']
    exact ⟨b', rfl⟩
  | case7 dir c rest hc hup hlen he ih =>
    rw [walk_name _ _ hc hup hlen, h.entry_of_directory he]
    exact ih hw
  | case4 | case6 | case8 | case9 => cases hw

theorem spot_file (h : SameTree s s') {path : Text} {l : Location} {b : Bytes}
    (hs : s.spot path = .ok (.file l b)) : ∃ b', s'.spot path = .ok (.file l b') := by
  obtain ⟨hpath, hwalk⟩ := spot_eq_ok_iff.1 hs
  obtain ⟨b', hwalk'⟩ := h.walk_file hwalk
  rw [← h.start_eq] at hwalk'
  exact ⟨b', spot_eq_ok_iff.2 ⟨hpath, hwalk'⟩⟩

theorem leadsTo_eq (h : SameTree s s') (path : Text) (l : Location) :
    s'.leadsTo path l = s.leadsTo path l := by
  rw [Bool.eq_iff_iff, leadsTo_iff, leadsTo_iff]
  constructor
  · rintro ⟨b, hb⟩
    exact h.symm.spot_file hb
  · rintro ⟨b, hb⟩
    exact h.spot_file hb

end SameTree

end BundlePatch.Store
