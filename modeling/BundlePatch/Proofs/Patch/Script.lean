import BundlePatch.Checker
import BundlePatch.Proofs.Files.ReadBack
import BundlePatch.Text.Utf8.RoundTrip

/-!
# The script that is checked

The name of the script alone decides whether the script can be saved (`scriptFault`). If it can
be, the program is started on the encoded text, under that name, and the check yields what comes
of it (`check_eq`). `result_check_eq_ok_iff` says which checks pass, and
`result_check_eq_system_iff` which ones the system ends.
-/

namespace BundlePatch

/-! ## Names in an empty directory -/

namespace Store

theorem spot_empty_of_name {name : Text} (hslash : '/' ∉ name) (hnul : '\x00' ∉ name)
    (hne : name ≠ []) (hdot : name ≠ ['.']) (hup : name ≠ ['.', '.'])
    (hlen : (Utf8.encode name).length ≤ Path.nameLimit) :
    (empty .root).spot name = .ok (.vacant (Location.root.child name)) := by
  have hsize : (Utf8.encode name).length < Path.sizeLimit := Nat.lt_of_le_of_lt hlen (by decide)
  have habsent : (empty .root).entry (Location.root.child name) = .absent := rfl
  refine spot_eq_ok_iff.2 ⟨⟨hnul, hne, hsize⟩, ?_⟩
  rw [start_of_name hslash, Path.components_eq_singleton hslash]
  change (empty .root).walk .root [name] = _
  rw [walk_name _ _ (not_or_intro hne hdot) hup (Nat.not_lt.2 hlen), habsent]
  rfl

theorem spot_of_long_name (s : Store) {name : Text} (hslash : '/' ∉ name) (hnul : '\x00' ∉ name)
    (hlen : Path.nameLimit < (Utf8.encode name).length) :
    s.spot name = .error (.system .nameTooLong) := by
  have ne_of_short {t : Text} (ht : (Utf8.encode t).length ≤ Path.nameLimit) : name ≠ t :=
    fun e => absurd (e ▸ hlen) (Nat.not_lt.2 ht)
  have hne : name ≠ [] := ne_of_short (by decide)
  have hdot : name ≠ ['.'] := ne_of_short (by decide)
  have hup : name ≠ ['.', '.'] := ne_of_short (by decide)
  by_cases hsize : Path.sizeLimit ≤ (Utf8.encode name).length
  · rw [spot, if_neg hnul, if_neg hne, if_pos hsize]
  · rw [spot, if_neg hnul, if_neg hne, if_neg hsize, Path.components_eq_singleton hslash, walk,
      if_neg (not_or_intro hne hdot), if_neg hup, if_pos hlen]
    rfl

end Store

/-! ## The name of a script -/

theorem mem_scriptName_iff {c : Char} (hc : c ∉ ".cjs".toList) (filename : Text) :
    c ∈ scriptName filename ↔ c ∈ Path.baseName filename := by
  rw [scriptName, List.mem_append, or_iff_left hc]

theorem length_encode_scriptName (filename : Text) :
    (Utf8.encode (scriptName filename)).length =
      (Utf8.encode (Path.baseName filename)).length + 4 := by
  rw [scriptName, Utf8.encode_append, List.length_append]
  rfl

theorem slash_not_mem_scriptName (filename : Text) : '/' ∉ scriptName filename :=
  mt (mem_scriptName_iff (by decide) filename).1 (Path.not_mem_baseName filename)

/-- With its ending the name is longer than those that mean something else. -/
theorem scriptName_ne_of_length_lt {t : Text} (h : t.length < 4) (filename : Text) :
    scriptName filename ≠ t := by
  rintro rfl
  rw [scriptName, List.length_append] at h
  exact absurd (Nat.le_add_left _ _) (Nat.not_le.2 h)

/-- Why no script can be saved for the file, if none can. -/
def scriptFault (filename : Text) : Option Failure :=
  if '\x00' ∈ Path.baseName filename then some .embeddedNul
  else if Path.nameLimit < (Utf8.encode (Path.baseName filename)).length + 4 then
    some (.system .nameTooLong)
  else none

/-- A script can be saved for the file. -/
def Savable (filename : Text) : Prop :=
  '\x00' ∉ Path.baseName filename ∧ (Utf8.encode (scriptName filename)).length ≤ Path.nameLimit

theorem scriptFault_eq_none_iff {filename : Text} :
    scriptFault filename = none ↔ Savable filename := by
  rw [Savable, length_encode_scriptName, scriptFault]
  by_cases hnul : '\x00' ∈ Path.baseName filename
  · rw [if_pos hnul]
    exact iff_of_false nofun fun h => h.1 hnul
  rw [if_neg hnul]
  split
  · rename_i hlen
    exact iff_of_false nofun fun h => absurd h.2 (Nat.not_le.2 hlen)
  · rename_i hlen
    exact iff_of_true rfl ⟨hnul, Nat.le_of_not_lt hlen⟩

theorem spot_empty_scriptName (filename : Text) :
    (Store.empty .root).spot (scriptName filename) =
      match scriptFault filename with
      | some e => .error e
      | none => .ok (.vacant (Location.root.child (scriptName filename))) := by
  have hslash : '/' ∉ scriptName filename := slash_not_mem_scriptName filename
  have hnul : '\x00' ∈ scriptName filename ↔ '\x00' ∈ Path.baseName filename :=
    mem_scriptName_iff (by decide) filename
  unfold scriptFault
  rw [← length_encode_scriptName]
  by_cases hn : '\x00' ∈ Path.baseName filename
  · rw [if_pos hn, Store.spot, if_pos (hnul.2 hn)]
  rw [if_neg hn]
  by_cases hlen : Path.nameLimit < (Utf8.encode (scriptName filename)).length
  · rw [if_pos hlen]
    exact Store.spot_of_long_name _ hslash (mt hnul.1 hn) hlen
  · rw [if_neg hlen]
    exact Store.spot_empty_of_name hslash (mt hnul.1 hn)
      (scriptName_ne_of_length_lt (by decide) filename)
      (scriptName_ne_of_length_lt (by decide) filename)
      (scriptName_ne_of_length_lt (by decide) filename) (Nat.le_of_not_lt hlen)

/-! ## The answer -/

theorem verdict_ne_system (output : Bytes) (status : Int) (e : SystemError) :
    verdict output status ≠ .error (.system e) := by
  unfold verdict
  cases hd : Utf8.decode output with
  | error fault =>
    rw [Text.ofBytes_of_malformed hd]
    nofun
  | ok t =>
    rw [Text.ofBytes_of_decode hd]
    dsimp only
    split <;> nofun

theorem verdict_eq_ok_iff {output : Bytes} {status : Int} :
    verdict output status = .ok () ↔ status = 0 ∧ Utf8.WellFormed output := by
  unfold verdict
  rw [Utf8.wellFormed_iff]
  cases hd : Utf8.decode output with
  | error fault =>
    rw [Text.ofBytes_of_malformed hd]
    exact iff_of_false nofun fun h => nomatch h.2
  | ok t =>
    rw [Text.ofBytes_of_decode hd]
    dsimp only
    split
    · rename_i hs
      exact iff_of_true rfl ⟨hs, t, rfl⟩
    · rename_i hs
      exact iff_of_false nofun fun h => hs h.1

namespace Checker

variable {c : Checker} {i j : Invocation}

/-- The program can be started. -/
def Starts (c : Checker) : Prop := ∃ stdout stderr status, c = answers stdout stderr status

theorem result_start_eq_ok_iff : (c.start i).result = .ok () ↔
    ∃ stdout stderr, c = .answers stdout stderr 0 ∧ Utf8.WellFormed (stdout ++ stderr) := by
  cases c with
  | missing | denied | unrunnable => simp [start]
  | answers stdout stderr status =>
    rw [start, verdict_eq_ok_iff]
    constructor
    · rintro ⟨rfl, h⟩
      exact ⟨stdout, stderr, rfl, h⟩
    · rintro ⟨_, _, e, h⟩
      cases e
      exact ⟨rfl, h⟩

/-- The program may not be started, or it cannot be. -/
def Refuses (c : Checker) (e : SystemError) : Prop :=
  (c = denied ∧ e.code = 13) ∨ (c = unrunnable ∧ e.code = 8)

theorem result_start_eq_system_iff {e : SystemError} :
    (c.start i).result = .error (.system e) ↔ c.Refuses e := by
  have hdenied : e.code = 13 ↔ e = .accessDenied := SystemError.code_inj e .accessDenied
  have hunrunnable : e.code = 8 ↔ e = .badExecutable := SystemError.code_inj e .badExecutable
  rw [Refuses, hdenied, hunrunnable]
  cases c with
  | missing => simp [start]
  | denied | unrunnable => simp [start, eq_comm]
  | answers stdout stderr status =>
    exact iff_of_false (verdict_ne_system _ _ e) nofun

theorem invocation_start_eq_some_iff : (c.start i).invocation = some j ↔ c.Starts ∧ j = i := by
  cases c with
  | missing | denied | unrunnable => simp [start, Starts]
  | answers stdout stderr status => simp [start, Starts, eq_comm]

end Checker

/-! ## The check -/

/-- Saving fails if and as the name says. Else the scratch directory holds the script and nothing
else, and what is found there is what was saved. -/
theorem saveScript_openScratch (content filename : Text) (w : Workspace) :
    saveScript content filename w.openScratch =
      match scriptFault filename with
      | some e => .error e
      | none =>
        let name := scriptName filename
        let script := Utf8.encode content
        .ok (⟨w.files, (Store.empty .root).set (Location.root.child name) script :: w.scratch⟩,
          ⟨name, script⟩) := by
  have hspot := spot_empty_scriptName filename
  unfold saveScript
  cases h : scriptFault filename with
  | some e =>
    rw [h] at hspot
    simp only [Workspace.writeScratch, Workspace.openScratch, Store.write, hspot]
    rfl
  | none =>
    rw [h] at hspot
    have hwrite : w.openScratch.writeScratch (scriptName filename) (Utf8.encode content) =
        .ok ⟨w.files, (Store.empty .root).set (Location.root.child (scriptName filename))
          (Utf8.encode content) :: w.scratch⟩ := by
      simp only [Workspace.writeScratch, Workspace.openScratch, Store.write, hspot]
      rfl
    rw [hwrite]
    simp only [bind, Except.bind, Workspace.readScratch_of_writeScratch hwrite]
    rfl

/-- A check is a start of the program on the saved script, if the script can be saved. -/
theorem check_eq (c : Checker) (content filename : Text) (w : Workspace) :
    check c content filename w =
      (match scriptFault filename with
        | some e => ⟨.error e, none⟩
        | none => c.start ⟨scriptName filename, Utf8.encode content⟩, w) := by
  have hw : (check c content filename w).2 = w := check_snd c content filename w
  refine Prod.ext ?_ hw
  unfold check
  rw [saveScript_openScratch]
  cases scriptFault filename <;> rfl

section

variable {c : Checker} {content filename : Text} {w : Workspace}

theorem result_check_eq_ok_iff : (check c content filename w).1.result = .ok () ↔
    Savable filename ∧ ∃ stdout stderr, c = .answers stdout stderr 0 ∧
      Utf8.WellFormed (stdout ++ stderr) := by
  rw [check_eq, ← scriptFault_eq_none_iff]
  cases scriptFault filename with
  | some e => simp
  | none => simpa using Checker.result_start_eq_ok_iff

theorem scriptFault_eq_system_iff {e : SystemError} :
    scriptFault filename = some (.system e) ↔ '\x00' ∉ Path.baseName filename ∧
      Path.nameLimit < (Utf8.encode (scriptName filename)).length ∧ e.code = 36 := by
  have hlong : e.code = 36 ↔ e = .nameTooLong := SystemError.code_inj e .nameTooLong
  rw [length_encode_scriptName, scriptFault, hlong]
  by_cases hnul : '\x00' ∈ Path.baseName filename
  · simp [hnul]
  · by_cases hlen : Path.nameLimit < (Utf8.encode (Path.baseName filename)).length + 4
    · simp [hnul, hlen, eq_comm]
    · simp [hnul, hlen]

/-- A check ends with a system error over the name of the script, or over the program. -/
theorem result_check_eq_system_iff {e : SystemError} :
    (check c content filename w).1.result = .error (.system e) ↔
      ('\x00' ∉ Path.baseName filename ∧
        Path.nameLimit < (Utf8.encode (scriptName filename)).length ∧ e.code = 36) ∨
      (Savable filename ∧ c.Refuses e) := by
  rw [check_eq, ← scriptFault_eq_none_iff, ← scriptFault_eq_system_iff]
  cases scriptFault filename with
  | some f => simp
  | none => simpa using Checker.result_start_eq_system_iff

theorem invocation_check_eq_some_iff {i : Invocation} :
    (check c content filename w).1.invocation = some i ↔
      Savable filename ∧ c.Starts ∧ i = ⟨scriptName filename, Utf8.encode content⟩ := by
  rw [check_eq, ← scriptFault_eq_none_iff]
  cases scriptFault filename with
  | some e => simp
  | none => simpa using Checker.invocation_start_eq_some_iff

end

end BundlePatch
