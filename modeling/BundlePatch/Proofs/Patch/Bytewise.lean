import BundlePatch.Proofs.Catalogue.Printable
import BundlePatch.Proofs.Patch.AllOrNothing

/-!
# Patching the bytes of a file

A pass decodes, edits and encodes. It does with the bytes of a file what the same pass does
that looks for the encoded candidates and puts the encoded replacements in their place
(`bytewise_pass`), so all bytes outside of these places are kept as they were.
-/

namespace BundlePatch

/-- A pass over the bytes of a text, for any rules, is the pass over the text. A run that patches a
file makes the pass of the catalogue over its bytes: edit by edit, a candidate is replaced, what
stands before and after it stays, and the bytes that are not printable ASCII are all kept. -/
theorem bytewise_pass :
    (∀ (rs : List (Rule Char)) (b : Bytes) (text : Text), Utf8.decode b = .ok text →
      Pass.run (rs.map Rule.encode) b =
        ⟨Utf8.encode (Pass.run rs text).content, (Pass.run rs text).applied⟩) ∧
    ∀ (c : Checker) (path : Text) (w : Workspace),
      (patch c path w).1.result = .ok .patched → ∃ old new : Bytes,
        w.files.read path = .ok old ∧ (patch c path w).2.files.read path = .ok new ∧
        new = (Pass.run (Catalogue.rules.map Rule.encode) old).content ∧
        Edits (Catalogue.rules.map Rule.encode)
          (Pass.run (Catalogue.rules.map Rule.encode) old).applied.length old new ∧
        new.foreign = old.foreign := by
  constructor
  · intro rs b text h
    rw [Utf8.decode_eq_ok_iff.1 h, Pass.run_encode]
  · intro c path w h
    obtain ⟨l, text, stdout, stderr, hspot, -, -, -, hw⟩ := patch_patched h
    have hnew : (patch c path w).2.files.read path =
        .ok (Utf8.encode (Pass.run Catalogue.rules text).content) := by
      rw [hw]
      exact Store.read_eq_ok_iff.2 ⟨l, Store.spot_set hspot rfl _⟩
    have hpass : Utf8.encode (Pass.run Catalogue.rules text).content =
        (Pass.run (Catalogue.rules.map Rule.encode) (Utf8.encode text)).content := by
      rw [Pass.run_encode]
    refine ⟨_, _, Store.read_eq_ok_iff.2 ⟨l, hspot⟩, hnew, hpass, ?_, ?_⟩
    · rw [hpass]
      exact Pass.edits_run (List.Subset.refl _) _
    · rw [hpass]
      exact Catalogue.foreign_run_rules_encode _

/-- An empty candidate stands before a character of two bytes. A run on a file keeps such a
character and a line end of two bytes, and removes a guard. -/
theorem bytewise_pass_accent_crlf :
    let w : Workspace := .ofFile ['a'] (Utf8.encode
      (['é', '\r', '\n'] ++ Catalogue.editorList ++ Catalogue.editorListGuard))
    let p := patch (.answers [] [] 0) ['a'] w
    Pass.run ([⟨"front", [[]], ['ß']⟩].map Rule.encode) (Utf8.encode ['é']) =
        ⟨Utf8.encode ['ß', 'é'], ["front"]⟩ ∧
      p.1.result = .ok .patched ∧ ∃ old new : Bytes,
        w.files.read ['a'] = .ok old ∧ p.2.files.read ['a'] = .ok new ∧
        old.foreign = [0xC3, 0xA9, 0x0D, 0x0A] ∧ new.foreign = old.foreign ∧
        new = Utf8.encode (['é', '\r', '\n'] ++ Catalogue.editorList) := by
  intro w p
  have hrun : p.1.result = .ok .patched := by decide +kernel
  refine ⟨?_, hrun, ?_⟩
  · rw [bytewise_pass.1 _ _ ['é'] (Utf8.decode_encode _)]
    decide
  · obtain ⟨old, new, hold, hread, hnew, -, hforeign⟩ := bytewise_pass.2 _ _ w hrun
    obtain rfl : _ = old := Except.ok.inj hold
    exact ⟨_, new, hold, hread, by decide +kernel, hforeign, by rw [hnew]; decide +kernel⟩

end BundlePatch
