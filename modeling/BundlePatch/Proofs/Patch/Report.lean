import BundlePatch.Proofs.Catalogue.Firing
import BundlePatch.Proofs.Catalogue.Printable
import BundlePatch.Proofs.Catalogue.Termination
import BundlePatch.Proofs.Patch.AllOrNothing
import Mathlib.Data.List.Forall2

/-!
# What a run says

A run that has read a text prints one line for each rule (`reports_of_mem_rules`) and then, by
its result, one more line or none (`stdout_patchText`). The lines on the rules and the result
agree: the result is that nothing matched exactly if no rule fired (`report_agrees`). The number
of lines that a patched file is said to have is that of the file as it was
(`patchedLine_run_rules`).
-/

namespace BundlePatch

open Catalogue

/-! ## Lines on the rules -/

/-- The line says whether the rule fired in the pass over the text. -/
def Reports (text : Text) (r : Rule Char) (line : Text) : Prop :=
  '\n' ∉ line ∧
    ((Pass.Fires rules text r ∧
        line = "  ".toList ++ r.name.toList ++ ": patched".toList) ∨
      (¬ Pass.Fires rules text r ∧
        line = "  ".toList ++ r.name.toList ++ ": not found, skipped".toList))

theorem newline_not_mem_name : ∀ r ∈ rules, '\n' ∉ r.name.toList := by
  decide +kernel

theorem reports_of_mem_rules {r : Rule Char} (hr : r ∈ rules) (text : Text) :
    ∃ line, ruleLine (Pass.run rules text).applied r.name = Text.line line ∧
      Reports text r line := by
  have hname : '\n' ∉ r.name.toList := newline_not_mem_name r hr
  refine ⟨_, rfl, ?_⟩
  by_cases h : r.name ∈ (Pass.run rules text).applied
  · have hf : Pass.Fires rules text r := (Pass.name_mem_applied_iff names_nodup hr text).1 h
    rw [if_pos h]
    exact ⟨by simp [hname], .inl ⟨hf, rfl⟩⟩
  · have hf : ¬ Pass.Fires rules text r := mt (Pass.name_mem_applied_iff names_nodup hr text).2 h
    rw [if_neg h]
    exact ⟨by simp [hname], .inr ⟨hf, rfl⟩⟩

theorem exists_lines {α : Type} {P : α → Text → Prop} {f : α → Text} {rs : List α}
    (h : ∀ r ∈ rs, ∃ line, f r = Text.line line ∧ P r line) :
    ∃ lines : List Text, rs.flatMap f = lines.flatMap Text.line ∧ List.Forall₂ P rs lines := by
  induction rs with
  | nil => exact ⟨[], rfl, .nil⟩
  | cons r rs ih =>
    obtain ⟨line, hline, hp⟩ := h r List.mem_cons_self
    obtain ⟨lines, hlines, hps⟩ := ih fun r hr => h r (List.mem_cons_of_mem _ hr)
    refine ⟨line :: lines, ?_, .cons hp hps⟩
    rw [List.flatMap_cons, List.flatMap_cons, hline, hlines]

/-! ## The last line -/

/-- What a run prints after the lines on the rules. -/
def closing (content : Text) : Except Failure Outcome → Text
  | .ok .noMatch => noMatchLine
  | .ok .patched => patchedLine content
  | _ => []

theorem head?_closing (content : Text) (e : Except Failure Outcome) :
    (closing content e).head? =
      match e with
      | .ok .noMatch => some 'N'
      | .ok .patched => some 'P'
      | _ => none := by
  rcases e with e | o
  · rfl
  · cases o with
    | noMatch =>
      have hletter : noMatchLine.head? = some 'N' := by decide +kernel
      exact hletter
    | patched | invalid => rfl

/-- The last line, if there is one, says what the result is. -/
theorem closing_eq_iff {content : Text} {e : Except Failure Outcome} {o : Outcome}
    (ho : o ≠ .invalid) : closing content e = closing content (.ok o) ↔ e = .ok o := by
  refine ⟨fun h => ?_, fun h => by rw [h]⟩
  have hhead := congrArg List.head? h
  rw [head?_closing, head?_closing] at hhead
  rcases e with e | o'
  · cases o with
    | invalid => exact absurd rfl ho
    | patched | noMatch => cases hhead
  · congr 1
    cases o <;> cases o' <;> simp_all

theorem closing_eq_nil_iff {content : Text} {e : Except Failure Outcome} :
    closing content e = [] ↔ e ≠ .ok .noMatch ∧ e ≠ .ok .patched := by
  rw [← List.head?_eq_none_iff, head?_closing]
  rcases e with e | o
  · simp
  · cases o <;> simp

/-- No rule touches a line feed, so the text as it was has the lines that are counted. -/
theorem patchedLine_run_rules (text : Text) :
    patchedLine (Pass.run rules text).content =
      .line ("Patch applied successfully. Lines: ".toList ++
        Nat.toDigits 10 (text.count '\n' + 1)) := by
  rw [patchedLine, lineCount_run_rules, Text.lineCount_eq_count]

/-! ## The output -/

theorem stdout_validate (c : Checker) (path content report : Text) (w : Workspace) :
    (validate c path content report w).1.stdout =
      report ++ closing content (validate c path content report w).1.result := by
  unfold validate
  generalize check c content path w = r
  obtain ⟨⟨result, invocation⟩, w'⟩ := r
  cases result with
  | error e => cases e <;> simp [closing]
  | ok u =>
    dsimp only
    split <;> simp [closing]

theorem stdout_patchText (c : Checker) (path text : Text) (w : Workspace) :
    (patchText c path text w).1.stdout = ruleLines (Pass.run rules text).applied ++
      closing (Pass.run rules text).content (patchText c path text w).1.result := by
  unfold patchText
  dsimp only
  split
  · rfl
  · exact stdout_validate c path _ _ w

theorem result_patchText_eq_noMatch_iff (c : Checker) (path text : Text) (w : Workspace) :
    (patchText c path text w).1.result = .ok .noMatch ↔
      (Pass.run rules text).content = text := by
  unfold patchText
  dsimp only
  split
  · rename_i h
    exact iff_of_true rfl h
  · rename_i h
    exact iff_of_false (result_validate_ne_noMatch c path _ _ w) h

/-- A pass that changes nothing has reported no rule. What a run prints on a text that it could read
is six lines, which say for each rule whether it fired. A line that nothing matched follows
exactly if none did, and then that is the result. A line with the number of lines, which is one
more than there were line feeds in the file, follows exactly if the file was patched. Nothing else
follows. -/
theorem report_agrees :
    (∀ rs ⊆ rules, ∀ s : Text, (Pass.run rs s).content = s ↔ (Pass.run rs s).applied = []) ∧
    ∀ (c : Checker) (path : Text) (w : Workspace) (bytes : Bytes) (text : Text),
      w.files.read path = .ok bytes → Utf8.decode bytes = .ok text →
      let t := (patch c path w).1
      let content := (Pass.run rules text).content
      let unmatched := Text.line (.ofPieces
        ["No patches matched (bundle may already be patched", " or patterns changed)."])
      let success := Text.line ("Patch applied successfully. Lines: ".toList ++
        Nat.toDigits 10 (text.count '\n' + 1))
      ∃ lines last, t.stdout = lines.flatMap Text.line ++ last ∧
        lines.length = 6 ∧ List.Forall₂ (Reports text) rules lines ∧
        (last = unmatched ↔ t.result = .ok .noMatch) ∧
        (t.result = .ok .noMatch ↔ ∀ r ∈ rules, ¬ Pass.Fires rules text r) ∧
        (last = success ↔ t.result = .ok .patched) ∧
        (last = [] ↔ t.result ≠ .ok .noMatch ∧ t.result ≠ .ok .patched) ∧
        Text.lineCount content = text.count '\n' + 1 := by
  refine ⟨fun rs hrs s => run_content_eq_iff hrs s, ?_⟩
  intro c path w bytes text hread hdecode t content unmatched success
  have ht : t = (patchText c path text w).1 := congrArg Prod.fst (patch_of_decode hread hdecode)
  have hsuccess : success = closing content (.ok .patched) := (patchedLine_run_rules text).symm
  obtain ⟨lines, hlines, hreports⟩ := exists_lines fun r hr => reports_of_mem_rules hr text
  refine ⟨lines, closing content t.result, ?_, hreports.length_eq.symm, hreports,
    closing_eq_iff (o := .noMatch) nofun, ?_, ?_, closing_eq_nil_iff, ?_⟩
  · rw [ht, stdout_patchText, ruleLines, hlines]
  · rw [ht, result_patchText_eq_noMatch_iff, run_content_eq_iff (List.Subset.refl _),
      Pass.applied_eq_nil_iff_not_fires names_nodup]
  · rw [hsuccess]
    exact closing_eq_iff nofun
  · rw [lineCount_run_rules, Text.lineCount_eq_count]

/-- Two runs on a file with a line feed. The report has been printed before a program is found that
may not be started, and nothing follows it. Where the program accepts the script, the two lines of
the file are counted. -/
theorem report_agrees_two_programs :
    let text := '\n' :: editorList ++ editorListGuard
    let w : Workspace := .ofFile ['a'] (Utf8.encode text)
    let t := (patch .denied ['a'] w).1
    let t' := (patch (.answers [] [] 0) ['a'] w).1
    t.result = .error (.system .accessDenied) ∧
      (∃ lines, t.stdout = lines.flatMap Text.line ∧ lines.length = 6 ∧
        List.Forall₂ (Reports text) rules lines) ∧
      t'.result = .ok .patched ∧
      ∃ lines, t'.stdout =
          lines.flatMap Text.line ++ "Patch applied successfully. Lines: 2\n".toList ∧
        lines.length = 6 ∧ List.Forall₂ (Reports text) rules lines := by
  intro text w t t'
  have hread : w.files.read ['a'] = .ok (Utf8.encode text) := by decide +kernel
  have hdecode : Utf8.decode (Utf8.encode text) = .ok text := Utf8.decode_encode text
  have hdenied : t.result = .error (.system .accessDenied) := by decide +kernel
  have hpatched : t'.result = .ok .patched := by decide +kernel
  refine ⟨hdenied, ?_, hpatched, ?_⟩
  · obtain ⟨lines, last, hout, hlen, hreports, -, -, -, hnil, -⟩ :=
      report_agrees.2 .denied ['a'] w _ text hread hdecode
    have hlast : last = [] := by
      apply hnil.2
      rw [show (patch .denied ['a'] w).1.result = _ from hdenied]
      exact ⟨nofun, nofun⟩
    refine ⟨lines, ?_, hlen, hreports⟩
    rw [hout, hlast, List.append_nil]
  · obtain ⟨lines, last, hout, hlen, hreports, -, -, hsuccess, -, -⟩ :=
      report_agrees.2 (.answers [] [] 0) ['a'] w _ text hread hdecode
    refine ⟨lines, ?_, hlen, hreports⟩
    rw [hout, hsuccess.2 hpatched]
    congr 1
    decide +kernel

end BundlePatch
