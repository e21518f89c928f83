import BundlePatch.CommandLine

/-!
# The program

The outer layer of the command line: it reads the bundle, runs the command on a workspace that
holds this one file under its own name, writes the file back if the run changed it, and prints
what the run printed. It starts no other program, so the checking program counts as missing.
-/

namespace BundlePatch.CommandLine

/-- What the argument vector begins with. -/
def program : Text := "bundle-patch".toList

def emit (t : Transcript Int) : IO UInt32 := do
  IO.print (String.ofList t.stdout)
  IO.eprint (String.ofList t.stderr)
  match t.result with
  | .ok status => return status.toNat.toUInt32
  | .error failure =>
    IO.eprintln (String.ofList failure.message)
    return 1

/-- Runs the command on the file at `path`. -/
def runOn (path : String) (args : List Text) : IO UInt32 := do
  let name := Path.baseName path.toList
  let content := (← IO.FS.readBinFile path).toList
  let (t, w) := launch .missing (program :: name :: args) (.ofFile name content)
  match w.files.get? (Location.root.child name) with
  | some b => if b ≠ content then IO.FS.writeBinFile path ⟨b.toArray⟩
  | none => pure ()
  emit t

/-- Runs the command. A file that cannot be read or written ends it with status 1. -/
def start (args : List String) : IO UInt32 := do
  match args with
  | [] => emit (launch .missing [program] ⟨.empty .root, []⟩).1
  | path :: rest =>
    try runOn path (rest.map String.toList)
    catch e =>
      IO.eprintln (toString e)
      return 1

end BundlePatch.CommandLine

def main (args : List String) : IO UInt32 := BundlePatch.CommandLine.start args
