import BundlePatch.Proofs.CommandLine.EntryPoints
import BundlePatch.Proofs.Files.SameTree
import BundlePatch.Proofs.Text.Bytewise

/-!
# What a session does to the files

A command touches at most the file that its path leads to, and what it makes of that file
depends on the bytes in it alone (`Command.get?_run`). For each file a session is therefore the
same as the steps on that file by themselves (`Session.get?_run`): it makes as many passes over
the file as there are accepted patches of it (`Session.get?_run_eq_through`).
-/

namespace BundlePatch

open Catalogue

/-! ## One patch -/

/-- What a patch makes of the bytes of its file. -/
def patchedBytes (c : Checker) (path : Text) (b : Bytes) : Bytes :=
  if ruling c path b = .ok .patched then (Pass.run (rules.map Rule.encode) b).content else b

theorem get?_patch_of_spot {c : Checker} {path : Text} {w : Workspace} {l : Location} {b : Bytes}
    (h : w.files.spot path = .ok (.file l b)) :
    (patch c path w).2.files.get? l = some (patchedBytes c path b) := by
  have hruling : (patch c path w).1.result = ruling c path b :=
    result_patch (Store.read_eq_ok_iff.2 ⟨l, h⟩)
  unfold patchedBytes
  by_cases hp : ruling c path b = .ok .patched
  · obtain ⟨l', text, stdout, stderr, hspot, -, -, -, hw⟩ := patch_patched (hruling.trans hp)
    rw [h] at hspot
    cases hspot
    rw [if_pos hp, hw, Store.get?_set_self, Pass.run_encode]
  · have hne : (patch c path w).1.result ≠ .ok .patched := by rwa [hruling]
    rw [if_neg hp, snd_patch_of_ne_patched hne, Store.get?_of_spot h]

theorem get?_patch_of_not_leadsTo {c : Checker} {path : Text} {w : Workspace} {l : Location}
    (h : ¬ w.files.leadsTo path l) : (patch c path w).2.files.get? l = w.files.get? l :=
  (changesOnly_patch c path w).others l fun b hb => h (Store.leadsTo_iff.2 ⟨b, hb⟩)

/-! ## One command -/

theorem Transcript.map_map {α β γ : Type} (f : α → β) (g : β → γ) (t : Transcript α) :
    (t.map f).map g = t.map fun a => g (f a) := by
  obtain ⟨result, stdout, stderr, invocation⟩ := t
  cases result <;> rfl

namespace Command

/-- The path of the file that the command is to patch. -/
def target? : Command → Option Text
  | patch path => some path
  | main args argv => (args.getD argv.tail).head?
  | launch argv => argv.tail.head?
  | check _ _ | save _ _ => none

def isSave : Command → Bool
  | save _ _ => true
  | _ => false

/-- Whether the command is to patch the file at the location. -/
def concerns (s : Store) (l : Location) (command : Command) : Bool :=
  command.target?.any (s.leadsTo · l)

/-- Whether the command does patch the file at the location. -/
def patches (c : Checker) (l : Location) (w : Workspace) (command : Command) : Bool :=
  command.target?.any fun path =>
    w.files.leadsTo path l && (BundlePatch.patch c path w).1.result = .ok .patched

/-- What the command makes of the bytes of the file that it is to patch. -/
def effect (c : Checker) (command : Command) (b : Bytes) : Bytes :=
  command.target?.elim b (patchedBytes c · b)

variable {c : Checker} {command : Command} {w : Workspace}

/-- A command with a target does what a patch of it does, and shows what that shows. -/
theorem run_of_target {path : Text} (h : command.target? = some path) : ∃ reply,
    command.run c w =
      ((BundlePatch.patch c path w).1.map reply, (BundlePatch.patch c path w).2) := by
  cases command with
  | patch path' => cases h; exact ⟨_, rfl⟩
  | main args argv =>
    refine ⟨fun o => .status (CommandLine.exitStatus o), ?_⟩
    unfold run
    dsimp only
    rw [CommandLine.main_of_head? h, Transcript.map_map]
  | launch argv =>
    have hargs : (Option.getD none argv.tail).head? = some path := h
    refine ⟨fun o => .status (CommandLine.exitStatus o), ?_⟩
    unfold run
    dsimp only
    rw [CommandLine.launch_eq_main, CommandLine.main_of_head? hargs, Transcript.map_map]
  | check content filename | save path' content => cases h

theorem run_of_no_target (hs : command.isSave = false) (h : command.target? = none) :
    (command.run c w).2 = w := by
  cases command with
  | patch path => cases h
  | main args argv => exact CommandLine.snd_main_of_head?_eq_none h
  | launch argv =>
    unfold run
    dsimp only
    rw [CommandLine.launch_eq_main]
    exact CommandLine.snd_main_of_head?_eq_none h
  | check content filename => exact check_snd c content filename w
  | save path content => cases hs

theorem run_snd (hs : command.isSave = false) :
    (command.run c w).2 = command.target?.elim w fun path => (BundlePatch.patch c path w).2 := by
  cases h : command.target? with
  | none => exact run_of_no_target hs h
  | some path =>
    obtain ⟨reply, hrun⟩ := run_of_target (c := c) (w := w) h
    rw [hrun]
    rfl

theorem keeps_run (h : command.isSave = false) :
    Store.SameTree w.files (command.run c w).2.files ∧
      (command.run c w).2.scratch = w.scratch := by
  rw [run_snd h]
  cases command.target? with
  | none => exact ⟨.refl _, rfl⟩
  | some path =>
    have hw := changesOnly_patch c path w
    exact ⟨⟨hw.here, hw.locations, hw.directories⟩, hw.scratch⟩

theorem get?_run (h : command.isSave = false) (l : Location) :
    (command.run c w).2.files.get? l =
      if command.concerns w.files l then (w.files.get? l).map (command.effect c)
      else w.files.get? l := by
  rw [run_snd h]
  unfold concerns effect
  cases command.target? with
  | none => rfl
  | some path =>
    simp only [Option.any_some, Option.elim_some]
    by_cases hl : w.files.leadsTo path l
    · obtain ⟨b, hb⟩ := Store.leadsTo_iff.1 hl
      rw [if_pos hl, get?_patch_of_spot hb, Store.get?_of_spot hb]
      rfl
    · rw [if_neg hl, get?_patch_of_not_leadsTo hl]

/-- Whether the file is patched depends on its bytes alone. -/
theorem patches_eq {l : Location} {b : Bytes} (hb : w.files.get? l = some b) :
    command.patches c l w = command.target?.any fun path =>
      w.files.leadsTo path l && decide (ruling c path b = .ok .patched) := by
  unfold patches
  congr 1
  funext path
  by_cases hl : w.files.leadsTo path l
  · rw [result_patch (Store.read_eq_ok_iff.2 ⟨l, Store.spot_of_leadsTo hl hb⟩)]
  · rw [Bool.eq_false_iff.2 hl, Bool.false_and, Bool.false_and]

/-- An accepted patch of a file is one pass over it, and nothing else changes it. -/
theorem get?_run_of_get? (h : command.isSave = false) {l : Location} {b : Bytes}
    (hb : w.files.get? l = some b) :
    (command.run c w).2.files.get? l =
      some (if command.patches c l w then (Pass.run (rules.map Rule.encode) b).content else b) := by
  rw [get?_run h, patches_eq hb, hb]
  unfold concerns effect
  cases command.target? with
  | none => rfl
  | some path => by_cases hl : w.files.leadsTo path l <;> simp [hl, patchedBytes]

theorem not_patches_of_malformed {l : Location} {b : Bytes} {fault : Utf8.Fault}
    (hb : w.files.get? l = some b) (hd : Utf8.decode b = .error fault) :
    command.patches c l w = false := by
  rw [patches_eq hb]
  cases command.target? with
  | none => rfl
  | some path => simp [ruling_of_malformed hd]

end Command

/-! ## Whole sessions -/

namespace Session

/-- The number of patches of the file at the location that are accepted in the session. -/
def patchCount (l : Location) : List (Checker × Command) → Workspace → Nat
  | [], _ => 0
  | (c, command) :: steps, w =>
    (if command.patches c l w then 1 else 0) + patchCount l steps (command.run c w).2

theorem run_cons_snd (c : Checker) (command : Command) (steps : List (Checker × Command))
    (w : Workspace) :
    (run ((c, command) :: steps) w).2 = (run steps (command.run c w).2).2 := rfl

theorem keeps_run {steps : List (Checker × Command)} (h : ∀ s ∈ steps, s.2.isSave = false)
    (w : Workspace) :
    Store.SameTree w.files (run steps w).2.files ∧ (run steps w).2.scratch = w.scratch := by
  induction steps generalizing w with
  | nil => exact ⟨.refl _, rfl⟩
  | cons s steps ih =>
    obtain ⟨c, command⟩ := s
    obtain ⟨hs, hsteps⟩ := List.forall_mem_cons.1 h
    obtain ⟨htree, hscratch⟩ := Command.keeps_run (c := c) (w := w) hs
    obtain ⟨htree', hscratch'⟩ := ih hsteps (command.run c w).2
    exact ⟨htree.trans htree', hscratch'.trans hscratch⟩

theorem get?_run {steps : List (Checker × Command)} (h : ∀ s ∈ steps, s.2.isSave = false)
    (w : Workspace) (l : Location) :
    (run steps w).2.files.get? l = (w.files.get? l).map fun b =>
      (steps.filter fun s => s.2.concerns w.files l).foldl (fun b s => s.2.effect s.1 b) b := by
  induction steps generalizing w with
  | nil => simp [run]
  | cons s steps ih =>
    obtain ⟨c, command⟩ := s
    obtain ⟨hs, hsteps⟩ := List.forall_mem_cons.1 h
    have htree := (Command.keeps_run (c := c) (w := w) hs).1
    -- the steps that follow concern the same files as before this one
    have hconcerns (s : Checker × Command) :
        s.2.concerns (command.run c w).2.files l = s.2.concerns w.files l := by
      unfold Command.concerns
      simp only [htree.leadsTo_eq]
    rw [run_cons_snd, ih hsteps, Command.get?_run hs, List.filter_cons]
    simp only [hconcerns]
    split
    · rw [Option.map_map]
      rfl
    · rfl

theorem get?_run_eq_through {steps : List (Checker × Command)}
    (h : ∀ s ∈ steps, s.2.isSave = false) {w : Workspace} {l : Location} {b : Bytes}
    (hb : w.files.get? l = some b) : (run steps w).2.files.get? l =
      some (Pass.through (List.replicate (patchCount l steps w) (rules.map Rule.encode)) b) := by
  induction steps generalizing w b with
  | nil => exact hb
  | cons s steps ih =>
    obtain ⟨c, command⟩ := s
    obtain ⟨hs, hsteps⟩ := List.forall_mem_cons.1 h
    rw [run_cons_snd, ih hsteps (Command.get?_run_of_get? hs hb), patchCount]
    split
    · rw [Nat.add_comm, List.replicate_succ, Pass.through]
    · rw [Nat.zero_add]

theorem patchCount_of_malformed {steps : List (Checker × Command)}
    (h : ∀ s ∈ steps, s.2.isSave = false) {w : Workspace} {l : Location} {b : Bytes}
    {fault : Utf8.Fault} (hb : w.files.get? l = some b) (hd : Utf8.decode b = .error fault) :
    patchCount l steps w = 0 := by
  induction steps generalizing w with
  | nil => rfl
  | cons s steps ih =>
    obtain ⟨c, command⟩ := s
    obtain ⟨hs, hsteps⟩ := List.forall_mem_cons.1 h
    have hn : command.patches c l w = false := Command.not_patches_of_malformed hb hd
    have hnext := Command.get?_run_of_get? (c := c) hs hb
    rw [hn] at hnext
    rw [patchCount, hn, ih hsteps hnext]
    rfl

end Session

/-- A session without saves leaves the files and directories that there were, and no scratch
directory. Each file has been through as many passes as patches of it were accepted, and through
none if it is no text. Sessions that have the same steps on each file, in the same order, leave
the same files. -/
theorem session_invariant (files : Store) {steps : List (Checker × Command)}
    (h : ∀ s ∈ steps, s.2.isSave = false) :
    let w : Workspace := ⟨files, []⟩
    let w' := (Session.run steps w).2
    Store.SameTree files w'.files ∧ w'.scratch = [] ∧
      (∀ l b text, files.get? l = some b → Utf8.decode b = .ok text →
        w'.files.get? l = some (Utf8.encode
          (Pass.through (List.replicate (Session.patchCount l steps w) rules) text))) ∧
      (∀ l b fault, files.get? l = some b → Utf8.decode b = .error fault →
        Session.patchCount l steps w = 0 ∧ w'.files.get? l = some b) ∧
      ∀ steps' : List (Checker × Command), (∀ s ∈ steps', s.2.isSave = false) →
        (∀ l, steps'.filter (fun s => s.2.concerns files l) =
          steps.filter fun s => s.2.concerns files l) →
        ∀ l, (Session.run steps' w).2.files.get? l = w'.files.get? l := by
  intro w w'
  obtain ⟨htree, hscratch⟩ := Session.keeps_run h w
  refine ⟨htree, hscratch, ?_, ?_, ?_⟩
  · intro l b text hl hd
    obtain rfl := Utf8.decode_eq_ok_iff.1 hd
    have hcalls (n : Nat) : List.replicate n (rules.map Rule.encode) =
        (List.replicate n rules).map (List.map Rule.encode) := List.map_replicate.symm
    rw [Session.get?_run_eq_through (w := w) h hl, hcalls, Pass.through_encode]
  · intro l b fault hl hd
    have h0 : Session.patchCount l steps w = 0 := Session.patchCount_of_malformed h hl hd
    refine ⟨h0, ?_⟩
    rw [Session.get?_run_eq_through (w := w) h hl, h0]
    rfl
  · intro steps' h' hsteps l
    rw [Session.get?_run h', Session.get?_run h, hsteps l]

/-- The file `a` is patched twice, on a way from the root and on one over the parent, and `b`, which
is no text, never. -/
theorem session_invariant_two_files :
    let here := Location.root.child ['w']
    let a := here.child ['a']
    let b := here.child ['b']
    let files : Store :=
      ⟨here, [(a, Utf8.encode (editorList ++ editorListGuard ++ editorListGuard)), (b, [0xFF])], []⟩
    let node : Checker := .answers [] [] 0
    let steps : List (Checker × Command) :=
      [(node, .patch ['/', 'w', '/', 'a']), (.missing, .main (some [['a']])),
        (node, .launch [[], ['.', '.', '/', 'w', '/', 'a']]), (.denied, .check [] ['a']),
        (node, .main none [[], ['b']])]
    let w' := (Session.run steps ⟨files, []⟩).2
    Session.patchCount a steps ⟨files, []⟩ = 2 ∧ Session.patchCount b steps ⟨files, []⟩ = 0 ∧
      w'.files.get? a = some (Utf8.encode editorList) ∧ w'.files.get? b = some [0xFF] ∧
      w'.scratch = [] := by
  intro here a b files node steps w'
  have hcount : Session.patchCount a steps ⟨files, []⟩ = 2 := by decide +kernel
  have hpasses : Pass.through (List.replicate 2 rules)
      (editorList ++ editorListGuard ++ editorListGuard) = editorList := by decide +kernel
  have hfault : Utf8.decode [0xFF] = .error ⟨0, [0xFF], .start⟩ := by decide +kernel
  have hsteps : ∀ s ∈ steps, s.2.isSave = false := by decide
  obtain ⟨-, hscratch, htexts, hothers, -⟩ := session_invariant files hsteps
  have hfile : files.get? a =
      some (Utf8.encode (editorList ++ editorListGuard ++ editorListGuard)) := rfl
  obtain ⟨hb, hb'⟩ := hothers b _ _ (by decide +kernel) hfault
  have ha := htexts a _ _ hfile (Utf8.decode_encode _)
  rw [hcount, hpasses] at ha
  exact ⟨hcount, hb, ha, hb', hscratch⟩

end BundlePatch
