import BundlePatch.Proofs.Patch.Script

/-!
# What a check can reach

However a file is named, the script for it lies in the scratch directory of the check, and that is
gone afterwards. A name that no file may have ends the check before the program is looked for.
Else the program is started once, if it can be, on the text that was to be checked
(`check_confined`).
-/

namespace BundlePatch

/-! ## What stands after the last slash -/

/-- The path ends in `base`, with a slash before it or nothing. -/
def Path.EndsInName (path base : Text) : Prop :=
  '/' ∉ base ∧ (path = base ∨ ∃ dir, path = dir ++ '/' :: base)

theorem Path.endsInName_baseName (path : Text) : EndsInName path (baseName path) := by
  have hsplit : path = (path.reverse.dropWhile (· != '/')).reverse ++ baseName path := by
    rw [baseName, ← List.reverse_append, List.takeWhile_append_dropWhile, List.reverse_reverse]
  refine ⟨not_mem_baseName path, ?_⟩
  have hhead := List.head?_dropWhile_not (· != '/') path.reverse
  cases hd : path.reverse.dropWhile (· != '/') with
  | nil =>
    rw [hd] at hsplit
    exact .inl hsplit
  | cons c dir =>
    rw [hd] at hsplit hhead
    obtain rfl : c = '/' := by simpa using hhead
    exact .inr ⟨dir.reverse, by simpa using hsplit⟩

/-! ## The check -/

/-- A check leaves the workspace as it was and no scratch directory behind. The name of the file
decides whether it comes to the program: where a script of that name cannot be saved, nothing is
started whatever the program is. Else the script alone is in the scratch directory, and it is what
the program is started on. The check passes exactly if the program then ends with status 0 and
writes UTF-8. It ends with a system error, and with which, by the name or by the program. -/
theorem check_confined (c : Checker) (content filename : Text) (w : Workspace) :
    let base := Path.baseName filename
    let name := scriptName filename
    let script := Utf8.encode content
    let r := check c content filename w
    r.2 = w ∧
      (Path.EndsInName filename base ∧ name = base ++ ".cjs".toList ∧
        '/' ∉ name ∧ name ≠ ['.'] ∧ name ≠ ['.', '.']) ∧
      ('\x00' ∈ base → r.1 = ⟨.error .embeddedNul, none⟩) ∧
      ('\x00' ∉ base → Path.nameLimit < (Utf8.encode name).length →
        r.1 = ⟨.error (.system .nameTooLong), none⟩) ∧
      (Savable filename → saveScript content filename w.openScratch =
        .ok (⟨w.files, (Store.empty .root).set (Location.root.child name) script :: w.scratch⟩,
          ⟨name, script⟩)) ∧
      (∀ i, r.1.invocation = some i ↔ Savable filename ∧ c.Starts ∧
        i.arguments = ["node".toList, "--check".toList, name] ∧ i.content = script) ∧
      (r.1.result = .ok () ↔ Savable filename ∧ ∃ stdout stderr,
        c = .answers stdout stderr 0 ∧ Utf8.WellFormed (stdout ++ stderr)) ∧
      ∀ e, r.1.result = .error (.system e) ↔
        ('\x00' ∉ base ∧ Path.nameLimit < (Utf8.encode name).length ∧ e.code = 36) ∨
          (Savable filename ∧ (c = .denied ∧ e.code = 13 ∨ c = .unrunnable ∧ e.code = 8)) := by
  intro base name script r
  refine ⟨check_snd c content filename w,
    ⟨Path.endsInName_baseName filename, rfl, slash_not_mem_scriptName filename,
      scriptName_ne_of_length_lt (by decide) filename,
      scriptName_ne_of_length_lt (by decide) filename⟩,
    fun hnul => ?_, fun hnul hlong => ?_, fun hsave => ?_, fun i => ?_, result_check_eq_ok_iff,
    fun e => result_check_eq_system_iff⟩
  · change (check c content filename w).1 = _
    rw [check_eq, scriptFault, if_pos hnul]
  · change (check c content filename w).1 = _
    rw [length_encode_scriptName] at hlong
    rw [check_eq, scriptFault, if_neg hnul, if_pos hlong]
  · rw [saveScript_openScratch, scriptFault_eq_none_iff.2 hsave]
  · rw [invocation_check_eq_some_iff]
    obtain ⟨script', content'⟩ := i
    simp [Invocation.arguments, name, script]

/-- A file that is named like the parent directory. Its script is not. -/
theorem check_confined_parent :
    let filename := "lib/..".toList
    let w : Workspace := .ofFile ['a'] [0x0A]
    let r := check (.answers [0xC3] [0xA9] 0) ['é'] filename w
    Path.EndsInName filename ['.', '.'] ∧ r.2 = w ∧ r.1.result = .ok () ∧
      ∃ i, r.1.invocation = some i ∧ i.content = [0xC3, 0xA9] ∧
        i.arguments = ["node".toList, "--check".toList, "...cjs".toList] := by
  intro filename w r
  have hsave : Savable filename := ⟨by decide, by decide⟩
  obtain ⟨hw, ⟨hname, -⟩, -, -, -, hstarted, hresult, -⟩ :=
    check_confined (.answers [0xC3] [0xA9] 0) ['é'] filename w
  refine ⟨hname, hw, hresult.2 ⟨hsave, [0xC3], [0xA9], rfl, ['é'], by decide⟩, ?_⟩
  refine ⟨⟨scriptName filename, Utf8.encode ['é']⟩, ?_, by decide, by decide⟩
  exact (hstarted _).2 ⟨hsave, ⟨_, _, _, rfl⟩, rfl, rfl⟩

end BundlePatch
