import BundlePatch.Files.Store

/-!
# Workspaces

A workspace is the store of files and the scratch directories that are open. Scratch files go
to the latest scratch directory and vanish with it: what was written there makes no difference
to what is left (`closeScratch_of_writeScratch`).
-/

namespace BundlePatch

structure Workspace where
  files : Store
  /-- The open scratch directories, the latest first. -/
  scratch : List Store
  deriving DecidableEq, Repr

namespace Workspace

/-- A workspace of the listed files, without scratch directories. The working directory is at some
depth, so that paths can leave it. -/
def ofList (files : List (Text × Bytes)) (here : Location := ⟨["tmp".toList, "work".toList]⟩) :
    Except Failure Workspace :=
  (Store.ofList here files).map (⟨·, []⟩)

/-- A workspace with one file, in a working directory that has nothing above it. -/
def ofFile (name : Text) (b : Bytes) : Workspace :=
  ⟨⟨.root, [(Location.root.child name, b)], []⟩, []⟩

/-- A scratch directory is a tree of its own, with nothing above it. -/
def openScratch (w : Workspace) : Workspace := { w with scratch := .empty .root :: w.scratch }

/-- Removes the latest scratch directory with all that is in it. -/
def closeScratch (w : Workspace) : Workspace := { w with scratch := w.scratch.tail }

def writeScratch (w : Workspace) (path : Text) (b : Bytes) : Except Failure Workspace :=
  match w.scratch with
  | [] => .error (.system .noEntry)
  | dir :: dirs => (dir.write path b).map fun dir => { w with scratch := dir :: dirs }

def readScratch (w : Workspace) (path : Text) : Except Failure Bytes :=
  match w.scratch with
  | [] => .error (.system .noEntry)
  | dir :: _ => dir.read path

theorem closeScratch_of_writeScratch {w w' : Workspace} {path : Text} {b : Bytes}
    (h : w.writeScratch path b = .ok w') : w'.closeScratch = w.closeScratch := by
  unfold writeScratch at h
  split at h
  · cases h
  · next dir dirs e =>
    cases hw : dir.write path b with
    | error _ => rw [hw] at h; cases h
    | ok dir' => rw [hw] at h; cases h; simp [closeScratch, e]

end Workspace

end BundlePatch
