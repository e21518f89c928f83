import BundlePatch.Failure
import BundlePatch.Files.Path

/-!
# File stores

A store holds files and the directories that were made for them, as seen from a working
directory. `Store.spot` follows a path from there or from the root, one component at a time;
`read` and `write` act on what it finds, and `save` makes the directories that the path needs
before it writes. The main statements: `get?` after `set` (`get?_set_self`, `get?_set_of_ne`),
the files there after it (`locations_set`), and what a path that can be followed is like
(`spot_eq_ok_iff`).
-/

namespace BundlePatch

/-- The files, each with its location and content, and the directories. The working directory and
those above it are there without being listed. -/
structure Store where
  /-- The working directory. -/
  here : Location
  files : List (Location × Bytes)
  directories : List Location
  deriving DecidableEq, Repr

namespace Store

/-- The store without files, with this working directory. -/
def empty (here : Location) : Store := ⟨here, [], []⟩

def locations (s : Store) : List Location := s.files.map (·.1)

def lookup (l : Location) : List (Location × Bytes) → Option Bytes
  | [] => none
  | (l', b) :: files => if l' = l then some b else lookup l files

def update (l : Location) (b : Bytes) : List (Location × Bytes) → List (Location × Bytes)
  | [] => [(l, b)]
  | (l', b') :: files => if l' = l then (l, b) :: files else (l', b') :: update l b files

/-- The content of the file at a location. -/
def get? (s : Store) (l : Location) : Option Bytes := lookup l s.files

/-- The store with this content at a location, whether a file was there or not. -/
def set (s : Store) (l : Location) (b : Bytes) : Store :=
  { s with files := update l b s.files }

/-- The files of `after` below its working directory whose content `before` does not hold in the
same place. Each has the way from the working directory. -/
def changes (before after : Store) : List (Location × Bytes) :=
  after.files.filterMap fun f =>
    if before.get? f.1 = some f.2 then none else (f.1.below? after.here).map (·, f.2)

theorem get?_set_self (s : Store) (l : Location) (b : Bytes) : (s.set l b).get? l = some b := by
  obtain ⟨_, files, _⟩ := s
  simp only [get?, set]
  induction files with
  | nil => simp [update, lookup]
  | cons f files ih =>
    by_cases h : f.1 = l
    · simp [update, lookup, h]
    · simp [update, lookup, h, ih]

theorem get?_set_of_ne {l l' : Location} (h : l' ≠ l) (s : Store) (b : Bytes) :
    (s.set l b).get? l' = s.get? l' := by
  obtain ⟨_, files, _⟩ := s
  simp only [get?, set]
  induction files with
  | nil => simp [update, lookup, h.symm]
  | cons f files ih =>
    by_cases e : f.1 = l
    · simp [update, lookup, e, h.symm]
    · simp [update, lookup, e, ih]

theorem locations_set {s : Store} {l : Location} (h : (s.get? l).isSome) (b : Bytes) :
    (s.set l b).locations = s.locations := by
  obtain ⟨_, files, _⟩ := s
  simp only [get?, set, locations] at h ⊢
  induction files with
  | nil => simp [lookup] at h
  | cons f files ih =>
    by_cases e : f.1 = l
    · simp [update, e]
    · simp only [lookup, e, if_false] at h
      simp [update, e, ih h]

/-! ## Following a path -/

/-- What is at a location. -/
inductive Entry where
  | file (content : Bytes)
  | directory
  | absent
  deriving DecidableEq, Repr

def isDirectory (s : Store) (l : Location) : Bool :=
  (s.here.below? l).isSome || l ∈ s.directories

def entry (s : Store) (l : Location) : Entry :=
  match s.get? l with
  | some b => .file b
  | none => if s.isDirectory l then .directory else .absent

/-- Where a path ends: at a file, at a directory, or in a directory at a name that is not there. -/
inductive Spot where
  | file (l : Location) (content : Bytes)
  | directory
  | vacant (l : Location)
  deriving DecidableEq, Repr

/-- Follows the components from a directory. -/
def walk (s : Store) : Location → List Text → Except SystemError Spot
  | _, [] => .ok .directory
  | dir, c :: rest =>
    if c = [] ∨ c = ['.'] then s.walk dir rest
    else if c = ['.', '.'] then s.walk dir.parent rest
    else if Path.nameLimit < (Utf8.encode c).length then .error .nameTooLong
    else
      match s.entry (dir.child c) with
      | .file b => if rest = [] then .ok (.file (dir.child c) b) else .error .notDirectory
      | .directory => s.walk (dir.child c) rest
      | .absent => if rest = [] then .ok (.vacant (dir.child c)) else .error .noEntry

section

variable (s : Store) (dir : Location) {c : Text} {rest : List Text}

theorem walk_of_skipped (hc : c = [] ∨ c = ['.']) : s.walk dir (c :: rest) = s.walk dir rest := by
  rw [walk, if_pos hc]

theorem walk_up : s.walk dir (['.', '.'] :: rest) = s.walk dir.parent rest := by
  rw [walk, if_neg (by decide), if_pos rfl]

/-- Every other component is the name of what comes next. -/
theorem walk_name (hc : ¬ (c = [] ∨ c = ['.'])) (hup : c ≠ ['.', '.'])
    (hlen : ¬ Path.nameLimit < (Utf8.encode c).length) :
    s.walk dir (c :: rest) =
      match s.entry (dir.child c) with
      | .file b => if rest = [] then .ok (.file (dir.child c) b) else .error .notDirectory
      | .directory => s.walk (dir.child c) rest
      | .absent => if rest = [] then .ok (.vacant (dir.child c)) else .error .noEntry := by
  rw [walk, if_neg hc, if_neg hup, if_neg hlen]

end

/-- Where a path starts: at the root if it begins with a slash, else in the working directory. -/
def start (s : Store) (path : Text) : Location :=
  if path.head? = some '/' then .root else s.here

def spot (s : Store) (path : Text) : Except Failure Spot :=
  if '\x00' ∈ path then .error .embeddedNul
  else if path = [] then .error (.system .noEntry)
  else if Path.sizeLimit ≤ (Utf8.encode path).length then .error (.system .nameTooLong)
  else (s.walk (s.start path) (Path.components path)).mapError .system

/-- The content of the file that the path names. -/
def read (s : Store) (path : Text) : Except Failure Bytes :=
  match s.spot path with
  | .ok (.file _ b) => .ok b
  | .ok .directory => .error (.system .isDirectory)
  | .ok (.vacant _) => .error (.system .noEntry)
  | .error e => .error e

/-- The store after the file that the path names has been given this content. A file that is not
there is made. -/
def write (s : Store) (path : Text) (b : Bytes) : Except Failure Store :=
  match s.spot path with
  | .ok (.file l _) => .ok (s.set l b)
  | .ok .directory => .error (.system .isDirectory)
  | .ok (.vacant l) => .ok (s.set l b)
  | .error e => .error e

/-! ## Making directories -/

/-- The store with a directory at the location, unless something is there. -/
def makeDirectory (s : Store) (l : Location) : Store :=
  match s.entry l with
  | .absent => { s with directories := l :: s.directories }
  | _ => s

/-- Makes the directories that the components pass, each where the way so far has led. -/
def makeDirectories (s : Store) (dir : Location) : List Text → Store
  | [] => s
  | c :: rest =>
    if c = [] ∨ c = ['.'] then s.makeDirectories dir rest
    else if c = ['.', '.'] then s.makeDirectories dir.parent rest
    else (s.makeDirectory (dir.child c)).makeDirectories (dir.child c) rest

/-- The store after the file has been put at a path, with the directories on the way to it. -/
def save (s : Store) (path : Text) (b : Bytes) : Except Failure Store :=
  (s.makeDirectories (s.start path) (Path.components path).dropLast).write path b

/-- The store of the listed files, which are saved in turn. -/
def ofList (here : Location) (files : List (Text × Bytes)) : Except Failure Store :=
  files.foldlM (fun s f => s.save f.1 f.2) (empty here)

/-! ## What was found -/

theorem start_of_name {name : Text} (h : '/' ∉ name) (s : Store) : s.start name = s.here :=
  if_neg fun hhead => h (List.mem_of_mem_head? hhead)

theorem read_eq_ok_iff {s : Store} {path : Text} {b : Bytes} :
    s.read path = .ok b ↔ ∃ l, s.spot path = .ok (.file l b) := by
  unfold read
  cases s.spot path with
  | error _ => simp
  | ok p => cases p <;> simp

theorem get?_of_entry {s : Store} {l : Location} {b : Bytes} (h : s.entry l = .file b) :
    s.get? l = some b := by
  unfold entry at h
  split at h
  · next e => cases h; exact e
  · split at h <;> cases h

theorem get?_of_walk {s : Store} {dir : Location} {cs : List Text} {l : Location} {b : Bytes}
    (h : s.walk dir cs = .ok (.file l b)) : s.get? l = some b := by
  fun_induction walk s dir cs with
  | case2 dir c rest hc ih => exact ih h
  | case3 dir rest hc ih => exact ih h
  | case5 dir c hc hup hlen b' he => cases h; exact get?_of_entry he
  | case7 dir c rest hc hup hlen he ih => exact ih h
  | case1 | case4 | case6 | case8 | case9 => cases h

/-- A path that can be followed has no U+0000, is not empty and is short enough. -/
theorem spot_eq_ok_iff {s : Store} {path : Text} {p : Spot} :
    s.spot path = .ok p ↔
      ('\x00' ∉ path ∧ path ≠ [] ∧ (Utf8.encode path).length < Path.sizeLimit) ∧
        s.walk (s.start path) (Path.components path) = .ok p := by
  unfold spot
  generalize s.walk _ (Path.components path) = r
  split
  · rename_i hnul
    exact iff_of_false nofun fun h => h.1.1 hnul
  split
  · rename_i hempty
    exact iff_of_false nofun fun h => h.1.2.1 hempty
  split
  · rename_i hsize
    exact iff_of_false nofun fun h => absurd h.1.2.2 (Nat.not_lt.2 hsize)
  · rename_i hnul hempty hsize
    cases r with
    | error e => exact iff_of_false nofun fun h => nomatch h.2
    | ok p' =>
      have hpath : '\x00' ∉ path ∧ path ≠ [] ∧ (Utf8.encode path).length < Path.sizeLimit :=
        ⟨hnul, hempty, Nat.lt_of_not_le hsize⟩
      exact ⟨fun h => ⟨hpath, congrArg _ (Except.ok.inj h)⟩,
        fun h => congrArg _ (Except.ok.inj h.2)⟩

theorem get?_of_spot {s : Store} {path : Text} {l : Location} {b : Bytes}
    (h : s.spot path = .ok (.file l b)) : s.get? l = some b :=
  get?_of_walk (spot_eq_ok_iff.1 h).2

end Store

end BundlePatch
