import BundlePatch.Proofs.Patch.AllOrNothing
import BundlePatch.Proofs.Text.Faults
import Mathlib.Control.Monad.Basic

/-!
# Files that are not UTF-8

A run on such a file ends with the fault of its bytes, before it has printed or started anything.
Which fault that is depends on the bytes alone, and its message is true of them
(`malformed_file_rejected`).
-/

namespace BundlePatch

/-- A run on a file that is not UTF-8 says nothing, starts nothing and changes nothing. The fault
that it ends with is the only one that the bytes have: they are well-formed up to it, no sequence
starts there, and its span is all that a sequence could have gone on from. The message names the
place of the span and gives the reason that holds there. Every other file is read as the text that
has its bytes. -/
theorem malformed_file_rejected (c : Checker) (path : Text) (w : Workspace) (bytes : Bytes)
    (hread : w.files.read path = .ok bytes) :
    (¬ Utf8.WellFormed bytes → ∃ fault : Utf8.Fault,
      patch c path w = (.silent (.error (.malformed fault)), w) ∧
        fault.IsIn bytes ∧ (∀ f : Utf8.Fault, f.IsIn bytes → f = fault) ∧
        ∃ place reason, (Failure.malformed fault).message =
            "'utf-8' codec can't decode ".toList ++ place ++ ": ".toList ++ reason ∧
          Utf8.Names bytes fault.offset fault.last place ∧
          Utf8.Diagnosis bytes fault.offset fault.last reason) ∧
      ∀ text, Text.ofBytes bytes = .ok text ↔ bytes = Utf8.encode text := by
  refine ⟨fun hw => ?_, fun text => Text.ofBytes_eq_ok_iff.trans Utf8.decode_eq_ok_iff⟩
  cases hd : Utf8.decode bytes with
  | ok text => exact absurd (Utf8.wellFormed_iff.2 ⟨text, hd⟩) hw
  | error fault =>
    have hfault : fault.IsIn bytes := Utf8.decode_eq_error_iff.1 hd
    exact ⟨fault, patch_of_malformed hread hd, hfault, fun f hf => hf.unique hfault,
      hfault.message_eq⟩

/-- A sequence of three bytes is broken off after two by a bracket. -/
theorem malformed_file_rejected_bracket :
    let bytes : Bytes := [0x61, 0xE2, 0x82, 0x28]
    let w : Workspace := .ofFile ['a'] bytes
    let fault : Utf8.Fault := ⟨1, [0xE2, 0x82], .continuation⟩
    ¬ Utf8.WellFormed bytes ∧
      patch .missing ['a'] w = (.silent (.error (.malformed fault)), w) ∧
      Utf8.Diagnosis bytes 1 2 "invalid continuation byte".toList ∧
      (Failure.malformed fault).message = .ofPieces
        ["'utf-8' codec can't decode bytes in position 1-2: ", "invalid continuation byte"] := by
  intro bytes w fault
  have hread : w.files.read ['a'] = .ok bytes := by decide +kernel
  have hfault : fault.IsIn bytes := Utf8.decode_eq_error_iff.1 (by decide +kernel)
  have hw : ¬ Utf8.WellFormed bytes := hfault.not_wellFormed
  obtain ⟨found, hpatch, -, hunique, place, reason, hmessage, -, hreason⟩ :=
    (malformed_file_rejected .missing ['a'] w bytes hread).1 hw
  obtain rfl : fault = found := hunique fault hfault
  have hspelled : (Failure.malformed fault).message = .ofPieces
      ["'utf-8' codec can't decode bytes in position 1-2: ", "invalid continuation byte"] := by
    decide +kernel
  refine ⟨hw, hpatch, ?_, hspelled⟩
  cases hreason with
  | start hone _ => exact absurd hone (by decide)
  | continuation hunfinished hlt hnone => exact .continuation hunfinished hlt hnone
  | truncated _ hend => exact absurd hend (by decide)

end BundlePatch
