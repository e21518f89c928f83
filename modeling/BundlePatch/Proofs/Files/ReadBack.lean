import BundlePatch.Files.Workspace

/-!
# Reading back what was written

Putting a content where a path leads does not change where the path leads
(`Store.spot_set`), so a file that was written is read back as it was written
(`Store.read_of_write`), in a scratch directory too
(`Workspace.readScratch_of_writeScratch`).
-/

namespace BundlePatch

namespace Store

/-- The place that a write to this spot would fill. -/
def Spot.location? : Spot → Option Location
  | .file l _ => some l
  | .directory => none
  | .vacant l => some l

theorem write_eq_ok_iff {s s' : Store} {path : Text} {b : Bytes} :
    s.write path b = .ok s' ↔
      ∃ p l, s.spot path = .ok p ∧ p.location? = some l ∧ s.set l b = s' := by
  unfold write
  cases s.spot path with
  | error _ => simp
  | ok p => cases p <;> simp [Spot.location?]

theorem entry_set_self (s : Store) (l : Location) (b : Bytes) :
    (s.set l b).entry l = .file b := by
  unfold entry
  rw [get?_set_self]

theorem entry_set_of_ne {l l' : Location} (h : l' ≠ l) (s : Store) (b : Bytes) :
    (s.set l b).entry l' = s.entry l' := by
  unfold entry
  rw [get?_set_of_ne h]
  rfl

/-- What a walk ends at is no directory if it can be written to. -/
theorem entry_ne_directory_of_walk {s : Store} {dir : Location} {cs : List Text} {p : Spot}
    {l : Location} (h : s.walk dir cs = .ok p) (hl : p.location? = some l) :
    s.entry l ≠ .directory := by
  fun_induction walk s dir cs with
  | case1 => cases h; cases hl
  | case2 dir c rest hc ih => exact ih h
  | case3 dir rest hc ih => exact ih h
  | case5 dir c hc hup hlen b he | case8 dir c hc hup hlen he =>
    cases h; cases hl
    rw [he]
    intro hd
    cases hd
  | case7 dir c rest hc hup hlen he ih => exact ih h
  | case4 | case6 | case9 => cases h

/-- The walk passes only directories, so it takes the same way after the write. -/
theorem walk_set {s : Store} {dir : Location} {cs : List Text} {p : Spot} {l : Location}
    (h : s.walk dir cs = .ok p) (hl : p.location? = some l) (b : Bytes) :
    (s.set l b).walk dir cs = .ok (.file l b) := by
  have hentry := entry_ne_directory_of_walk h hl
  fun_induction walk s dir cs with
  | case1 => cases h; cases hl
  | case2 dir c rest hc ih =>
    rw [walk_of_skipped _ _ hc]
    exact ih h
  | case3 dir rest hc ih =>
    rw [walk_up]
    exact ih h
  | case5 dir c hc hup hlen b' he | case8 dir c hc hup hlen he =>
    cases h; cases hl
    rw [walk_name _ _ hc hup hlen, entry_set_self]
    rfl
  | case7 dir c rest hc hup hlen he ih =>
    have hne : dir.child c ≠ l := by
      rintro rfl
      exact hentry he
    rw [walk_name _ _ hc hup hlen, entry_set_of_ne hne, he]
    exact ih h
  | case4 | case6 | case9 => cases h

theorem spot_set {s : Store} {path : Text} {p : Spot} {l : Location} (h : s.spot path = .ok p)
    (hl : p.location? = some l) (b : Bytes) : (s.set l b).spot path = .ok (.file l b) := by
  obtain ⟨hpath, hwalk⟩ := spot_eq_ok_iff.1 h
  exact spot_eq_ok_iff.2 ⟨hpath, walk_set hwalk hl b⟩

theorem read_of_write {s s' : Store} {path : Text} {b : Bytes} (h : s.write path b = .ok s') :
    s'.read path = .ok b := by
  obtain ⟨p, l, hp, hl, rfl⟩ := write_eq_ok_iff.1 h
  exact read_eq_ok_iff.2 ⟨l, spot_set hp hl b⟩

end Store

namespace Workspace

theorem readScratch_of_writeScratch {w w' : Workspace} {path : Text} {b : Bytes}
    (h : w.writeScratch path b = .ok w') : w'.readScratch path = .ok b := by
  unfold writeScratch at h
  split at h
  · cases h
  · rename_i dir dirs e
    cases hw : dir.write path b with
    | error _ => rw [hw] at h; cases h
    | ok dir' =>
      rw [hw] at h
      cases h
      exact Store.read_of_write hw

end Workspace

end BundlePatch
