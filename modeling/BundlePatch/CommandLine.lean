import BundlePatch.Patch

/-!
# The command line

The first argument is the path of the bundle. Further arguments are ignored. Without an argument
the usage text is printed. The status is 1 after that and after an invalid patch, else 0. `main`
is the entry for a caller, who may give arguments; `launch` is a process of its own.
-/

namespace BundlePatch.CommandLine

/-- What the command does and how it is called. It begins and ends with a line feed. -/
def usage : Text := .ofPieces
  ["\nPatch the Codex Electron main bundle for Windows compatibility.\n",
   "\nReplaces macOS-only editor detection with cross-platform equivalents:\n",
   "drops the macOS/Windows editor guards, swaps the `which`-based command\n",
   "lookup for one that uses `where` on Windows, and lets the VS Code",
   " detectors\nhonor CODEX_VSCODE_PATH / CODEX_VSCODE_INSIDERS_PATH",
   " and `.cmd` shims.\n",
   "\nThe result is checked with `node --check` before it is written back.\n",
   "\nUsage:\n",
   "    python3 patches/patch_main_windows.py <path-to-main-bundle.js>\n"]

def exitStatus (o : Outcome) : Int := if o.label = Outcome.label .invalid then 1 else 0

/-- Runs the command with its arguments. -/
def run (c : Checker) (args : List Text) (w : Workspace) : Transcript Int × Workspace :=
  match args with
  | [] => (⟨.ok 1, usage.line, [], none⟩, w)
  | path :: _ =>
    let (t, w) := patch c path w
    (t.map exitStatus, w)

/-- Runs the command with the arguments that are given, or else with those of the process. The
argument vector of a process begins with the name of the program, if it is not empty. -/
def main (c : Checker) (args : Option (List Text)) (argv : List Text) (w : Workspace) :
    Transcript Int × Workspace :=
  run c (args.getD argv.tail) w

/-- What is left of a status when a process ends with it: the last eight bits. -/
def exitCode (status : Int) : Int := status % 256

/-- Runs the command as a process. -/
def launch (c : Checker) (argv : List Text) (w : Workspace) : Transcript Int × Workspace :=
  let (t, w) := main c none argv w
  (t.map exitCode, w)

end BundlePatch.CommandLine
