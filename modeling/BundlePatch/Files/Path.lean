import BundlePatch.Text.Utf8

/-!
# Paths and locations

A path is a text; slashes separate its components. A location is where a file or directory
lies: the names that lead to it from the root of the file system. Many paths lead to one
location.
-/

namespace BundlePatch

namespace Path

/-- The pieces between slashes. Some may be empty. -/
def components (path : Text) : List Text := path.splitOn '/'

/-- What stands after the last slash. -/
def baseName (path : Text) : Text := (path.reverse.takeWhile (· != '/')).reverse

/-- No name may take more bytes than this. -/
def nameLimit : Nat := 255

/-- Every path takes fewer bytes than this. -/
def sizeLimit : Nat := 4096

theorem not_mem_baseName (path : Text) : '/' ∉ baseName path := by
  intro h
  rw [baseName, List.mem_reverse] at h
  have := List.all_eq_true.1 (List.all_takeWhile (p := (· != '/')) (l := path.reverse)) _ h
  simp at this

example : baseName ['a', '/', 'b'] = ['b'] ∧ baseName ['a', '/'] = [] := by decide

theorem components_eq_singleton {path : Text} (h : '/' ∉ path) : components path = [path] :=
  List.splitOn_eq_singleton h

end Path

/-- The way from a directory down to a place. Unless another directory is named, it starts at the
root. -/
structure Location where
  names : List Text
  deriving DecidableEq, Repr

namespace Location

def root : Location := ⟨[]⟩

/-- The directory that holds the location. The root holds itself. -/
def parent (l : Location) : Location := ⟨l.names.dropLast⟩

/-- The place of this name in a directory. -/
def child (dir : Location) (name : Text) : Location := ⟨dir.names ++ [name]⟩

/-- The way from the directory down to the location, if it is the directory or lies below. -/
def below? (l dir : Location) : Option Location := (dir.names.isPrefixOf? l.names).map .mk

/-- The names, joined by slashes. -/
def toPath (l : Location) : Text := ['/'].intercalate l.names

example :
    let w := root.child ['w']
    let a := w.child ['a']
    (a.parent = w ∧ root.parent = root) ∧ (a.below? w).map toPath = some ['a'] ∧
      root.below? w = none := by
  decide

end Location

end BundlePatch
