import BundlePatch.Catalogue
import BundlePatch.Transcript

/-!
# Patching a file

`patch` reads a file, runs one pass of the catalogue over its text, reports on each rule,
has the new text checked, and writes it back if the check accepts it. The file is written
last, so a run that ends early has changed nothing. The main statements: a file that is
not there or is not UTF-8 is left alone without a word (`patch_of_read_error`,
`patch_of_ofBytes_error`), and only a patched file changes the workspace
(`snd_patch_of_ne_patched`).
-/

namespace BundlePatch

/-- How a patch that did not fail ends. -/
inductive Outcome where
  | patched
  | noMatch
  | invalid
  deriving DecidableEq, Repr

/-- The value that stands for the outcome outside. -/
def Outcome.label : Outcome → Text
  | patched => "patched".toList
  | noMatch => "no-match".toList
  | invalid => "invalid".toList

theorem Outcome.label_inj {o o' : Outcome} : o.label = o'.label ↔ o = o' := by
  cases o <;> cases o' <;> decide

/-! ## Reports -/

def ruleLine (applied : List String) (name : String) : Text :=
  let verdict := if name ∈ applied then ": patched" else ": not found, skipped"
  Text.line ("  ".toList ++ name.toList ++ verdict.toList)

/-- One line for each rule of the catalogue. -/
def ruleLines (applied : List String) : Text :=
  Catalogue.rules.flatMap fun r => ruleLine applied r.name

def noMatchLine : Text :=
  .line (.ofPieces
    ["No patches matched (bundle may already be patched", " or patterns changed)."])

def patchedLine (content : Text) : Text :=
  .line ("Patch applied successfully. Lines: ".toList ++ Nat.toDigits 10 content.lineCount)

def invalidLine : Text :=
  .line (.ofPieces ["ERROR: Patched bundle has a syntax error, ", "aborting write."])

/-- The number of code points of a message that are shown. -/
def excerptLength : Nat := 300

def excerptLine (message : Text) : Text := .line (message.take excerptLength)

/-! ## The run -/

/-- Has the new content checked, and writes it back if it is accepted. `report` is what has been
printed before. -/
def validate (c : Checker) (path content report : Text) (w : Workspace) :
    Transcript Outcome × Workspace :=
  let (inspection, w) := check c content path w
  match inspection.result with
  | .error (.rejected message) =>
    let excerpt := excerptLine (Failure.rejected message).message
    (⟨.ok .invalid, report, invalidLine ++ excerpt, inspection.invocation⟩, w)
  | .error e => (⟨.error e, report, [], inspection.invocation⟩, w)
  | .ok () =>
    match w.files.write path (Utf8.encode content) with
    | .error e => (⟨.error e, report, [], inspection.invocation⟩, w)
    | .ok files =>
      (⟨.ok .patched, report ++ patchedLine content, [], inspection.invocation⟩,
        { w with files })

/-- Runs one pass over the text of a file. -/
def patchText (c : Checker) (path text : Text) (w : Workspace) : Transcript Outcome × Workspace :=
  let pass := Pass.run Catalogue.rules text
  let report := ruleLines pass.applied
  if pass.content = text then (⟨.ok .noMatch, report ++ noMatchLine, [], none⟩, w)
  else validate c path pass.content report w

def patch (c : Checker) (path : Text) (w : Workspace) : Transcript Outcome × Workspace :=
  match w.files.read path with
  | .error e => (.silent (.error e), w)
  | .ok bytes =>
    match Text.ofBytes bytes with
    | .error e => (.silent (.error e), w)
    | .ok text => patchText c path text w

theorem patch_of_read_error {c : Checker} {path : Text} {w : Workspace} {e : Failure}
    (h : w.files.read path = .error e) : patch c path w = (.silent (.error e), w) := by
  rw [patch, h]

theorem patch_of_ofBytes_error {c : Checker} {path : Text} {w : Workspace} {bytes : Bytes}
    {e : Failure} (h : w.files.read path = .ok bytes) (hb : Text.ofBytes bytes = .error e) :
    patch c path w = (.silent (.error e), w) := by
  rw [patch, h]; dsimp only; rw [hb]

theorem snd_validate_of_ne_patched {c : Checker} {path content report : Text} {w : Workspace}
    (h : (validate c path content report w).1.result ≠ .ok .patched) :
    (validate c path content report w).2 = w := by
  have hw := check_snd c content path w
  unfold validate at h ⊢
  generalize check c content path w = r at h hw ⊢
  obtain ⟨⟨result, invocation⟩, w'⟩ := r
  obtain rfl : w' = w := hw
  dsimp only at h ⊢
  split
  · rfl
  · rfl
  · dsimp only at h
    split
    · rfl
    · next hf => rw [hf] at h; exact absurd rfl h

theorem snd_patch_of_ne_patched {c : Checker} {path : Text} {w : Workspace}
    (h : (patch c path w).1.result ≠ .ok .patched) : (patch c path w).2 = w := by
  unfold patch at h ⊢
  split at h
  · rfl
  · split at h
    · rfl
    · unfold patchText at h ⊢
      dsimp only at h ⊢
      split at h
      · simp [*]
      · simp only [*, if_false]
        exact snd_validate_of_ne_patched h

end BundlePatch
