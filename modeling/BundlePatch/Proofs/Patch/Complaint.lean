import BundlePatch.Proofs.Patch.AllOrNothing
import Mathlib.Control.Monad.Basic

/-!
# What is said of a refused script

The message is what the program wrote, without the blanks at both ends, or its status if it wrote
nothing else (`complaint_cases`). A check that the program refuses ends with that message, and a
run that has such a check prints the beginning of it, which is never empty and never blank
(`complaint_shown`).
-/

namespace BundlePatch

/-! ## Messages -/

namespace Text

theorem not_mem_ofInt {c : Char} (hdigit : c.isDigit = false) (hsign : c ≠ '-') (n : Int) :
    c ∉ ofInt n := by
  have not_mem_digits (k : Nat) : c ∉ Nat.toDigits 10 k := by
    intro h
    rw [Nat.isDigit_of_mem_toDigits (by decide) (by decide) h] at hdigit
    cases hdigit
  cases n with
  | ofNat k => exact not_mem_digits k
  | negSucc k => exact List.not_mem_cons_of_ne_of_not_mem hsign (not_mem_digits (k + 1))

theorem mem_of_mem_trim {t : Text} {c : Char} (h : c ∈ t.trim) : c ∈ t := by
  obtain ⟨w, w', ht, -, -⟩ := trim_split t
  rw [ht]
  exact List.mem_append_left w' (List.mem_append_right w h)

/-- `m` is what stands between the blanks at both ends of `s`. It begins and ends with other code
points, so it is not empty. -/
structure IsCore (m s : Text) : Prop where
  split : ∃ w w', s = w ++ m ++ w' ∧ (∀ c ∈ w, isBlank c = true) ∧ ∀ c ∈ w', isBlank c = true
  head : ∃ c rest, m = c :: rest ∧ isBlank c = false
  last : ∃ rest c, m = rest ++ [c] ∧ isBlank c = false

theorem isCore_trim {s : Text} (h : s.trim ≠ []) : IsCore s.trim s where
  split := trim_split s
  head := by
    obtain ⟨c, rest, hm⟩ := List.exists_cons_of_ne_nil h
    exact ⟨c, rest, hm, isBlank_head_trim hm⟩
  last := ⟨_, _, (List.dropLast_concat_getLast h).symm,
    isBlank_getLast_trim (List.dropLast_concat_getLast h).symm⟩

end Text

section

variable (output : Text) (status : Int)

theorem complaint_cases :
    ((∀ c ∈ output.unifyNewlines, isBlank c = true) ∧
        complaint output status = "node --check exited with ".toList ++ Text.ofInt status) ∨
      Text.IsCore (complaint output status) output.unifyNewlines := by
  unfold complaint
  dsimp only
  split
  · rename_i h
    exact .inl ⟨Text.trim_eq_nil_iff.1 h, rfl⟩
  · rename_i h
    exact .inr (Text.isCore_trim h)

theorem complaint_head : ∃ c rest, complaint output status = c :: rest ∧ isBlank c = false := by
  rcases complaint_cases output status with ⟨-, h⟩ | h
  · exact ⟨'n', _, h, by decide⟩
  · exact h.head

theorem not_mem_complaint : '\r' ∉ complaint output status := by
  unfold complaint
  dsimp only
  split
  · rw [List.mem_append, not_or]
    exact ⟨by decide, Text.not_mem_ofInt (by decide) (by decide) status⟩
  · exact mt Text.mem_of_mem_trim (Text.not_mem_unifyNewlines output)

end

/-! ## Checks and runs -/

theorem check_of_refused {stdout stderr : Bytes} {status : Int} {output filename : Text}
    (hstatus : status ≠ 0) (hdecode : Utf8.decode (stdout ++ stderr) = .ok output)
    (hsave : Savable filename) (content : Text) (w : Workspace) :
    (check (.answers stdout stderr status) content filename w).1.result =
      .error (.rejected (complaint output status)) := by
  rw [check_eq, scriptFault_eq_none_iff.2 hsave]
  change verdict (stdout ++ stderr) status = _
  rw [verdict, Text.ofBytes_of_decode hdecode]
  exact if_neg hstatus

theorem validate_of_rejected {c : Checker} {path content message : Text} {w : Workspace}
    (h : (check c content path w).1.result = .error (.rejected message)) (report : Text) :
    (validate c path content report w).1.result = .ok .invalid ∧
      (validate c path content report w).1.stderr = invalidLine ++ excerptLine message := by
  unfold validate
  generalize check c content path w = r at h ⊢
  obtain ⟨⟨result, invocation⟩, w'⟩ := r
  obtain rfl : result = .error (.rejected message) := h
  exact ⟨rfl, rfl⟩

theorem patchText_of_ne {c : Checker} {path text : Text} {w : Workspace}
    (h : (Pass.run Catalogue.rules text).content ≠ text) :
    patchText c path text w = validate c path (Pass.run Catalogue.rules text).content
      (ruleLines (Pass.run Catalogue.rules text).applied) w :=
  if_neg h

/-- A program that writes UTF-8 and ends with another status than 0 refuses every script that can be
saved, with one message. That is what it wrote, with unified line ends and without the blanks
around it, or else its status. A run that changes its text and is refused prints the first 300
code points of the message, which begin with one that is not blank. -/
theorem complaint_shown (stdout stderr : Bytes) (status : Int) (output : Text)
    (hstatus : status ≠ 0) (hdecode : Utf8.decode (stdout ++ stderr) = .ok output) :
    let node := Checker.answers stdout stderr status
    let s := output.unifyNewlines
    ∃ m : Text,
      (((∀ c ∈ s, isBlank c = true) ∧
          m = "node --check exited with ".toList ++ Text.ofInt status) ∨ Text.IsCore m s) ∧
      m ≠ [] ∧ '\r' ∉ m ∧
      (∀ content filename w, Savable filename →
        (check node content filename w).1.result = .error (.rejected m)) ∧
      ∀ path w text, w.files.read path = .ok (Utf8.encode text) →
        (Pass.run Catalogue.rules text).content ≠ text → Savable path →
        let t := (patch node path w).1
        let excerpt := m.take (min 300 m.length)
        t.result = .ok .invalid ∧ t.stderr = invalidLine ++ Text.line excerpt ∧
          ∃ c rest, excerpt = c :: rest ∧ isBlank c = false := by
  intro node s
  refine ⟨complaint output status, complaint_cases output status, complaint_ne_nil output status,
    not_mem_complaint output status, fun content filename w hsave => ?_, ?_⟩
  · exact check_of_refused hstatus hdecode hsave content w
  · intro path w text hread hne hsave t excerpt
    have ht : t = (validate node path (Pass.run Catalogue.rules text).content
        (ruleLines (Pass.run Catalogue.rules text).applied) w).1 := by
      rw [← patchText_of_ne hne, ← patch_of_decode hread (Utf8.decode_encode text)]
    have hexcerpt : excerpt = (complaint output status).take excerptLength :=
      List.take_eq_take_min.symm
    have hcheck := check_of_refused hstatus hdecode hsave (Pass.run Catalogue.rules text).content w
    obtain ⟨hresult, hstderr⟩ :=
      validate_of_rejected hcheck (ruleLines (Pass.run Catalogue.rules text).applied)
    refine ⟨ht ▸ hresult, ?_, ?_⟩
    · rw [ht, hexcerpt]
      exact hstderr
    · obtain ⟨c, rest, hm, hc⟩ := complaint_head output status
      exact ⟨c, rest.take 299, by rw [hexcerpt, hm]; rfl, hc⟩

/-- The program is killed after a blank, a character that is divided between its streams, and a line
end of two characters. -/
theorem complaint_shown_killed :
    let text := Catalogue.editorList ++ Catalogue.editorListGuard
    let w : Workspace := .ofFile ['a'] (Utf8.encode text)
    let t := (patch (.answers [0x20, 0xC3] [0xA9, 0x0D, 0x0A] (-9)) ['a'] w).1
    t.result = .ok .invalid ∧ ∃ m : Text, m.IsCore [' ', 'é', '\n'] ∧
      t.stderr = invalidLine ++ Text.line (m.take (min 300 m.length)) := by
  intro text w t
  have hread : w.files.read ['a'] = .ok (Utf8.encode text) := by decide +kernel
  have hne : (Pass.run Catalogue.rules text).content ≠ text := by decide +kernel
  have hsave : Savable ['a'] := ⟨by decide, by decide⟩
  have hdecode : Utf8.decode ([0x20, 0xC3] ++ [0xA9, 0x0D, 0x0A]) = .ok [' ', 'é', '\r', '\n'] := by
    decide +kernel
  obtain ⟨m, hm, -, -, -, hpatch⟩ := complaint_shown _ _ (-9) _ (by decide) hdecode
  obtain ⟨hresult, hstderr, -⟩ := hpatch ['a'] w text hread hne hsave
  refine ⟨hresult, m, hm.resolve_left fun h => ?_, hstderr⟩
  exact absurd (h.1 'é' (by decide)) (by decide)

end BundlePatch
