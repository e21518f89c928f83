import BundlePatch.Proofs.Catalogue.Termination
import BundlePatch.Proofs.Patch.AllOrNothing

/-!
# How a run ends

`ruling` says how a run on a file ends, by the first reason that applies: the bytes, the
candidates in the text as it was, the name of the file, and last the checking program. That
is how each run ends that can read its file (`result_patch`); one that cannot says nothing
and starts nothing (`patch_outcome`). Where the system refuses something, its error number tells
what (`Store.read_error_cases`, `ruling_system_cases`).
-/

namespace BundlePatch

/-! ## The table -/

/-- How a run ends that gets as far as the checking program. -/
def Checker.ruling : Checker → Except Failure Outcome
  | missing => .ok .invalid
  | denied => .error (.system .accessDenied)
  | unrunnable => .error (.system .badExecutable)
  | answers stdout stderr status =>
    match Utf8.decode (stdout ++ stderr) with
    | .error fault => .error (.malformed fault)
    | .ok _ => if status = 0 then .ok .patched else .ok .invalid

/-- How a run on a file ends, given its path and what it holds. -/
def ruling (c : Checker) (path : Text) (bytes : Bytes) : Except Failure Outcome :=
  match Utf8.decode bytes with
  | .error fault => .error (.malformed fault)
  | .ok text =>
    if ∀ r ∈ Catalogue.rules, ¬ r.Occurs text then .ok .noMatch
    else if Path.nameLimit < (Utf8.encode (Path.baseName path)).length + 4 then
      .error (.system .nameTooLong)
    else c.ruling

theorem ruling_of_malformed {c : Checker} {path : Text} {bytes : Bytes} {fault : Utf8.Fault}
    (h : Utf8.decode bytes = .error fault) : ruling c path bytes = .error (.malformed fault) := by
  rw [ruling, h]

/-! ## The checking program -/

/-- What a run makes of a check. -/
def settle : Except Failure Unit → Except Failure Outcome
  | .ok () => .ok .patched
  | .error (.rejected _) => .ok .invalid
  | .error e => .error e

theorem settle_start (c : Checker) (i : Invocation) : settle (c.start i).result = c.ruling := by
  cases c with
  | missing | denied | unrunnable => rfl
  | answers stdout stderr status =>
    have hstart : (Checker.start (.answers stdout stderr status) i).result =
        verdict (stdout ++ stderr) status := rfl
    rw [hstart, verdict, Checker.ruling]
    cases hd : Utf8.decode (stdout ++ stderr) with
    | error fault => rw [Text.ofBytes_of_malformed hd]; rfl
    | ok output =>
      rw [Text.ofBytes_of_decode hd]
      by_cases hs : status = 0
      · simp only [if_pos hs, settle]
      · simp only [if_neg hs, settle]

theorem settle_eq_system_iff {r : Except Failure Unit} {e : SystemError} :
    settle r = .error (.system e) ↔ r = .error (.system e) := by
  rcases r with f | u
  · cases f <;> simp [settle]
  · simp [settle]

theorem Checker.ruling_eq_system_iff {c : Checker} {e : SystemError} :
    c.ruling = .error (.system e) ↔ c.Refuses e := by
  rw [← settle_start c ⟨[], []⟩, settle_eq_system_iff, result_start_eq_system_iff]

theorem ruling_system_cases {c : Checker} {path : Text} {bytes : Bytes} {e : SystemError}
    (h : ruling c path bytes = .error (.system e)) :
    (Path.nameLimit < (Utf8.encode (Path.baseName path)).length + 4 ∧ e.code = 36) ∨
      c.Refuses e := by
  unfold ruling at h
  split at h
  · cases h
  split at h
  · cases h
  split at h
  · rename_i hlong
    cases h
    exact .inl ⟨hlong, rfl⟩
  · exact .inr (Checker.ruling_eq_system_iff.1 h)

theorem result_validate {c : Checker} {path content report : Text} {w : Workspace} {files : Store}
    (h : w.files.write path (Utf8.encode content) = .ok files) :
    (validate c path content report w).1.result = settle (check c content path w).1.result := by
  have hw : (check c content path w).2 = w := check_snd c content path w
  unfold validate
  generalize check c content path w = r at hw ⊢
  obtain ⟨⟨result, invocation⟩, w'⟩ := r
  obtain rfl : w' = w := hw
  cases result with
  | error e => cases e <;> rfl
  | ok u => simp only [h, settle]

/-! ## The name of the script -/

theorem Path.mem_of_mem_baseName {path : Text} {c : Char} (h : c ∈ baseName path) : c ∈ path := by
  rw [baseName, List.mem_reverse] at h
  exact List.mem_reverse.1 ((List.takeWhile_prefix _).subset h)

/-- Where a file was found, only the length of its name may be in the way of the script. -/
theorem scriptFault_of_spot {s : Store} {path : Text} {p : Store.Spot} (h : s.spot path = .ok p) :
    scriptFault path = if Path.nameLimit < (Utf8.encode (Path.baseName path)).length + 4 then
      some (.system .nameTooLong) else none :=
  if_neg fun hn => (Store.spot_eq_ok_iff.1 h).1.1 (Path.mem_of_mem_baseName hn)

/-! ## Files that cannot be read -/

namespace Store

theorem walk_error_cases {s : Store} {dir : Location} {cs : List Text} {e : SystemError}
    (h : s.walk dir cs = .error e) : e.code = 2 ∨ e.code = 20 ∨ e.code = 36 := by
  fun_induction walk s dir cs with
  | case2 dir c rest hc ih => exact ih h
  | case3 dir rest hc ih => exact ih h
  | case4 => cases h; exact .inr (.inr rfl)
  | case6 => cases h; exact .inr (.inl rfl)
  | case7 dir c rest hc hup hlen he ih => exact ih h
  | case9 => cases h; exact .inl rfl
  | case1 | case5 | case8 => cases h

theorem spot_error_cases {s : Store} {path : Text} {e : Failure} (h : s.spot path = .error e) :
    ('\x00' ∈ path ∧ e = .embeddedNul) ∨
      ('\x00' ∉ path ∧ ∃ e', e = .system e' ∧ (e'.code = 2 ∨ e'.code = 20 ∨ e'.code = 36)) := by
  unfold spot at h
  split at h
  · rename_i hnul
    exact .inl ⟨hnul, (Except.error.inj h).symm⟩
  rename_i hnul
  refine .inr ⟨hnul, ?_⟩
  split at h
  · exact ⟨_, (Except.error.inj h).symm, .inl rfl⟩
  split at h
  · exact ⟨_, (Except.error.inj h).symm, .inr (.inr rfl)⟩
  cases hw : s.walk (s.start path) (Path.components path) with
  | error e' =>
    rw [hw] at h
    exact ⟨e', (Except.error.inj h).symm, walk_error_cases hw⟩
  | ok p => rw [hw] at h; cases h

theorem read_error_cases {s : Store} {path : Text} {e : Failure} (h : s.read path = .error e) :
    ('\x00' ∈ path ∧ e = .embeddedNul) ∨
      ('\x00' ∉ path ∧ ∃ e', e = .system e' ∧ e'.code ∈ [2, 20, 21, 36]) := by
  unfold read at h
  cases hs : s.spot path with
  | error e' =>
    rw [hs] at h
    obtain rfl : e' = e := Except.error.inj h
    rcases spot_error_cases hs with hnul | ⟨hnul, f, hf, hcode⟩
    · exact .inl hnul
    · refine .inr ⟨hnul, f, hf, ?_⟩
      rcases hcode with hcode | hcode | hcode <;> simp [hcode]
  | ok p =>
    have hnul : '\x00' ∉ path := (spot_eq_ok_iff.1 hs).1.1
    rw [hs] at h
    cases p with
    | file l b => cases h
    | directory => exact .inr ⟨hnul, _, (Except.error.inj h).symm, by decide⟩
    | vacant l => exact .inr ⟨hnul, _, (Except.error.inj h).symm, by decide⟩

end Store

/-! ## The run -/

theorem result_patchText {c : Checker} {path text : Text} {w : Workspace} {l : Location}
    (h : w.files.spot path = .ok (.file l (Utf8.encode text))) :
    (patchText c path text w).1.result =
      if ∀ r ∈ Catalogue.rules, ¬ r.Occurs text then .ok .noMatch
      else if Path.nameLimit < (Utf8.encode (Path.baseName path)).length + 4 then
        .error (.system .nameTooLong)
      else c.ruling := by
  have hsame : (Pass.run Catalogue.rules text).content = text ↔
      ∀ r ∈ Catalogue.rules, ¬ r.Occurs text := by
    rw [Catalogue.run_content_eq_iff (List.Subset.refl _), Pass.applied_eq_nil_iff]
  unfold patchText
  dsimp only
  by_cases hn : (Pass.run Catalogue.rules text).content = text
  · rw [if_pos hn, if_pos (hsame.1 hn)]
  · have hwrite : w.files.write path (Utf8.encode (Pass.run Catalogue.rules text).content) =
        .ok (w.files.set l (Utf8.encode (Pass.run Catalogue.rules text).content)) := by
      rw [Store.write, h]
    rw [if_neg hn, if_neg (mt hsame.2 hn), result_validate hwrite, check_eq,
      scriptFault_of_spot h]
    by_cases hlen : Path.nameLimit < (Utf8.encode (Path.baseName path)).length + 4
    · rw [if_pos hlen, if_pos hlen]
      rfl
    · rw [if_neg hlen, if_neg hlen]
      exact settle_start c _

theorem result_patch {c : Checker} {path : Text} {w : Workspace} {bytes : Bytes}
    (h : w.files.read path = .ok bytes) : (patch c path w).1.result = ruling c path bytes := by
  cases hd : Utf8.decode bytes with
  | error fault => rw [patch_of_malformed h hd, ruling_of_malformed hd]; rfl
  | ok text =>
    obtain ⟨l, hspot⟩ := Store.read_eq_ok_iff.1 h
    rw [Utf8.decode_eq_ok_iff.1 hd] at hspot
    rw [patch_of_decode h hd, result_patchText hspot, ruling, hd]

/-- A run that cannot read its file, as text, ends with the reason, says nothing and starts nothing.
Every other run ends as the table says. A refusal by the system has the number of its cause: what
is at the path, the name of the script, or the program. -/
theorem patch_outcome (c : Checker) (path : Text) (w : Workspace) :
    let t := (patch c path w).1
    (∀ e, w.files.read path = .error e → t = .silent (.error e) ∧
      (('\x00' ∈ path ∧ e = .embeddedNul) ∨
        ('\x00' ∉ path ∧ ∃ e', e = .system e' ∧ e'.code ∈ [2, 20, 21, 36]))) ∧
    ∀ bytes, w.files.read path = .ok bytes → t.result = ruling c path bytes ∧
      (∀ fault, Utf8.decode bytes = .error fault → t = .silent (.error (.malformed fault))) ∧
      ∀ e, t.result = .error (.system e) →
        (Path.nameLimit < (Utf8.encode (Path.baseName path)).length + 4 ∧ e.code = 36) ∨
          (c = .denied ∧ e.code = 13) ∨ (c = .unrunnable ∧ e.code = 8) := by
  intro t
  refine ⟨fun e he => ⟨?_, Store.read_error_cases he⟩,
    fun bytes hb => ⟨result_patch hb, fun fault hf => ?_, fun e he => ?_⟩⟩
  · exact congrArg Prod.fst (patch_of_read_error he)
  · exact congrArg Prod.fst (patch_of_malformed hb hf)
  · exact ruling_system_cases ((result_patch hb).symm.trans he)

/-- The two streams of the program are read as one text: the bytes of one character may be divided
between them, and half of a character counts before the status. -/
theorem patch_outcome_divided_character :
    let old : Bytes := Utf8.encode (Catalogue.editorList ++ Catalogue.editorListGuard)
    let w : Workspace := .ofFile ['a'] old
    (patch (.answers [0xC3] [0xA9] 0) ['a'] w).1.result = .ok .patched ∧
      (patch (.answers [0xC3] [] 1) ['a'] w).1.result =
        .error (.malformed ⟨0, [0xC3], .truncated⟩) ∧
      (patch .missing ['b'] w).1 = .silent (.error (.system .noEntry)) := by
  intro old w
  have hread : w.files.read ['a'] = .ok old := by decide +kernel
  have habsent : w.files.read ['b'] = .error (.system .noEntry) := by decide +kernel
  refine ⟨?_, ?_, ((patch_outcome _ _ w).1 _ habsent).1⟩
  · rw [((patch_outcome _ _ w).2 old hread).1]
    decide +kernel
  · rw [((patch_outcome _ _ w).2 old hread).1]
    decide +kernel

end BundlePatch
