import BundlePatch.Files.Workspace
import BundlePatch.Text.Blank
import BundlePatch.Text.Newline

/-!
# The syntax check

A text is checked by an outside program. It is saved as a script in a scratch directory,
the program is started on the script, and the directory is removed, whatever happened. The
main statements: a check leaves the workspace as it was (`check_snd`); a check that the program
refuses has a message that says something (`complaint_ne_nil`).
-/

namespace BundlePatch

/-- How the checking program behaves: it cannot be started, or it writes to its two streams and ends
with a status. -/
inductive Checker where
  | missing
  | denied
  | unrunnable
  | answers (stdout stderr : Bytes) (status : Int)
  deriving DecidableEq, Repr

/-- What the checking program was started on: the name of the script and what it holds. -/
structure Invocation where
  script : Text
  content : Bytes
  deriving DecidableEq, Repr

/-- The argument vector. Of the path of the script it has the name only: the scratch directory
before it has a name that is made up anew for each check. -/
def Invocation.arguments (i : Invocation) : List Text :=
  ["node".toList, "--check".toList, i.script]

/-- What a check yields, and what the checking program was started on, if it was. -/
structure Inspection where
  result : Except Failure Unit
  invocation : Option Invocation

/-! ## The answer of the program -/

/-- What the program has to say on a script that it refuses: its output, or else its status. -/
def complaint (output : Text) (status : Int) : Text :=
  let message := output.unifyNewlines.trim
  if message = [] then "node --check exited with ".toList ++ .ofInt status else message

/-- The output is read as text whatever the status. -/
def verdict (output : Bytes) (status : Int) : Except Failure Unit :=
  match Text.ofBytes output with
  | .error e => .error e
  | .ok t => if status = 0 then .ok () else .error (.rejected (complaint t status))

def missingMessage : Text :=
  .ofPieces ["node not found on PATH; ", "cannot validate patched bundle"]

/-- Starts the program, both of whose streams go to one pipe. -/
def Checker.start (c : Checker) (i : Invocation) : Inspection :=
  match c with
  | missing => ⟨.error (.rejected missingMessage), none⟩
  | denied => ⟨.error (.system .accessDenied), none⟩
  | unrunnable => ⟨.error (.system .badExecutable), none⟩
  | answers stdout stderr status => ⟨verdict (stdout ++ stderr) status, some i⟩

/-! ## The check -/

/-- The name under which the script for a file is saved. The ending keeps the script from being
taken for a module. -/
def scriptName (filename : Text) : Text := Path.baseName filename ++ ".cjs".toList

/-- The name of a bundle that comes from no file. -/
def defaultFilename : Text := "bundle.js".toList

/-- Saves the script, and finds it as the program will. -/
def saveScript (content filename : Text) (w : Workspace) :
    Except Failure (Workspace × Invocation) := do
  let w ← w.writeScratch (scriptName filename) (Utf8.encode content)
  return (w, ⟨scriptName filename, ← w.readScratch (scriptName filename)⟩)

def check (c : Checker) (content filename : Text) (w : Workspace) : Inspection × Workspace :=
  match saveScript content filename w.openScratch with
  | .error e => (⟨.error e, none⟩, w.openScratch.closeScratch)
  | .ok (w, i) => (c.start i, w.closeScratch)

theorem closeScratch_of_saveScript {content filename : Text} {w w' : Workspace} {i : Invocation}
    (h : saveScript content filename w = .ok (w', i)) : w'.closeScratch = w.closeScratch := by
  unfold saveScript at h
  cases hw : w.writeScratch (scriptName filename) (Utf8.encode content) with
  | error e => rw [hw] at h; cases h
  | ok v =>
    rw [hw] at h
    cases hr : v.readScratch (scriptName filename) with
    | error e => simp [bind, Except.bind, hr] at h
    | ok b =>
      simp only [bind, Except.bind, pure, Except.pure, hr, Except.ok.injEq, Prod.mk.injEq] at h
      exact h.1 ▸ Workspace.closeScratch_of_writeScratch hw

theorem check_snd (c : Checker) (content filename : Text) (w : Workspace) :
    (check c content filename w).2 = w := by
  unfold check
  split
  · rfl
  · next h => exact closeScratch_of_saveScript h

theorem complaint_ne_nil (output : Text) (status : Int) : complaint output status ≠ [] := by
  unfold complaint
  dsimp only
  split
  · simp
  · assumption

end BundlePatch
