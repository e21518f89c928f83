import BundlePatch.Text.Utf8

/-!
# Failures

The causes that end a run early, and their wording. `SystemError` holds what the file
system and the start of a program may answer.
-/

namespace BundlePatch

/-- Refusals by the operating system. -/
inductive SystemError where
  | noEntry
  | badExecutable
  | accessDenied
  | notDirectory
  | isDirectory
  | nameTooLong
  deriving DecidableEq, Repr

namespace SystemError

/-- The error number. -/
def code : SystemError → Nat
  | noEntry => 2
  | badExecutable => 8
  | accessDenied => 13
  | notDirectory => 20
  | isDirectory => 21
  | nameTooLong => 36

theorem code_inj (e e' : SystemError) : e.code = e'.code ↔ e = e' := by
  cases e <;> cases e' <;> decide

def message : SystemError → Text
  | noEntry => "No such file or directory".toList
  | badExecutable => "Exec format error".toList
  | accessDenied => "Permission denied".toList
  | notDirectory => "Not a directory".toList
  | isDirectory => "Is a directory".toList
  | nameTooLong => "File name too long".toList

end SystemError

/-- Why a run ended early. -/
inductive Failure where
  | system (e : SystemError)
  /-- A path holds U+0000. -/
  | embeddedNul
  /-- Bytes that should be UTF-8 are not. -/
  | malformed (fault : Utf8.Fault)
  /-- The checked script was found bad, or could not be checked. -/
  | rejected (message : Text)
  deriving DecidableEq, Repr

def Failure.message : Failure → Text
  | system e => e.message
  | embeddedNul => "embedded null byte".toList
  | malformed fault => fault.message
  | rejected message => message

/-- The text that the bytes spell, or the failure to read it. -/
def Text.ofBytes (bs : Bytes) : Except Failure Text := (Utf8.decode bs).mapError .malformed

theorem Text.ofBytes_of_decode {bs : Bytes} {t : Text} (h : Utf8.decode bs = .ok t) :
    ofBytes bs = .ok t := by
  rw [ofBytes, h]
  rfl

theorem Text.ofBytes_of_malformed {bs : Bytes} {fault : Utf8.Fault}
    (h : Utf8.decode bs = .error fault) : ofBytes bs = .error (.malformed fault) := by
  rw [ofBytes, h]
  rfl

theorem Text.ofBytes_eq_ok_iff {bs : Bytes} {t : Text} :
    ofBytes bs = .ok t ↔ Utf8.decode bs = .ok t := by
  cases h : Utf8.decode bs with
  | error fault => exact iff_of_false (by rw [ofBytes_of_malformed h]; nofun) nofun
  | ok t' => rw [ofBytes_of_decode h, Except.ok.injEq, Except.ok.injEq]

end BundlePatch
