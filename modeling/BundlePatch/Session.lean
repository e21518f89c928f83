import BundlePatch.CommandLine

/-!
# Sessions

A session is a sequence of commands on one workspace, each with the checking program as it
behaves during that command. Each command leaves a record: its transcript, the files that it
changed and the number of scratch directories that are still there.
-/

namespace BundlePatch

inductive Command where
  | patch (path : Text)
  /-- The command line, called with arguments or without in a process with this argument vector. -/
  | main (args : Option (List Text)) (argv : List Text := [])
  /-- The command line as a process with this argument vector. -/
  | launch (argv : List Text)
  | check (content filename : Text)
  /-- Puts a file into the workspace from outside, with the directories that it needs. -/
  | save (path : Text) (content : Bytes)
  deriving DecidableEq, Repr

/-- The result of a command that did not fail. -/
inductive Reply where
  | outcome (o : Outcome)
  | status (n : Int)
  | done
  deriving DecidableEq, Repr

def Command.run (c : Checker) : Command → Workspace → Transcript Reply × Workspace
  | patch path, w =>
    let (t, w) := BundlePatch.patch c path w
    (t.map .outcome, w)
  | main args argv, w =>
    let (t, w) := CommandLine.main c args argv w
    (t.map .status, w)
  | launch argv, w =>
    let (t, w) := CommandLine.launch c argv w
    (t.map .status, w)
  | check content filename, w =>
    let (i, w) := BundlePatch.check c content filename w
    (⟨i.result.map fun _ => .done, [], [], i.invocation⟩, w)
  | save path content, w =>
    match w.files.save path content with
    | .error e => (.silent (.error e), w)
    | .ok files => (.silent (.ok .done), { w with files })

namespace Session

structure Record where
  transcript : Transcript Reply
  changed : List (Location × Bytes)
  scratchLeft : Nat

def step (c : Checker) (command : Command) (w : Workspace) : Record × Workspace :=
  let (t, w') := command.run c w
  (⟨t, w.files.changes w'.files, w'.scratch.length⟩, w')

def run : List (Checker × Command) → Workspace → List Record × Workspace
  | [], w => ([], w)
  | (c, command) :: steps, w =>
    let (r, w) := step c command w
    let (rs, w) := run steps w
    (r :: rs, w)

end Session

end BundlePatch
