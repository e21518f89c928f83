import BundlePatch.Proofs.Patch.Ruling
import BundlePatch.Session

/-!
# Entry points

The command is called with its arguments or without, or it is a process of its own; then the
argument vector begins with the name of the program. The three ways do the same, in a single run
(`CommandLine.launch_eq_main`) and in a whole session (`Session.run_direct`). What they show is
what a patch of the first argument shows, and the exit status tells how that ended
(`CommandLine.entry_points_agree`).
-/

namespace BundlePatch

/-! ## Results -/

namespace Transcript

variable {α β : Type} {f : α → β} {t : Transcript α}

theorem result_map_eq_ok_iff {b : β} :
    (t.map f).result = .ok b ↔ ∃ a, t.result = .ok a ∧ f a = b := by
  obtain ⟨result, stdout, stderr, invocation⟩ := t
  cases result <;> simp [map, Except.map]

theorem result_map_eq_error_iff {e : Failure} :
    (t.map f).result = .error e ↔ t.result = .error e := by
  obtain ⟨result, stdout, stderr, invocation⟩ := t
  cases result <;> simp [map, Except.map]

theorem map_eq_self {f : α → α} {t : Transcript α} (h : ∀ a, t.result = .ok a → f a = a) :
    t.map f = t := by
  obtain ⟨result, stdout, stderr, invocation⟩ := t
  cases result with
  | error e => rfl
  | ok a => rw [map, Except.map, h a rfl]

end Transcript

namespace CommandLine

variable {c : Checker} {args : List Text} {w : Workspace}

theorem exitStatus_eq_one_iff {o : Outcome} : exitStatus o = 1 ↔ o = .invalid := by
  rw [exitStatus, ← Outcome.label_inj]
  split <;> simp [*]

theorem exitStatus_eq_zero_iff {o : Outcome} : exitStatus o = 0 ↔ o = .patched ∨ o = .noMatch := by
  have hinvalid : exitStatus o = 0 ↔ o ≠ .invalid := by
    rw [exitStatus, ne_eq, ← Outcome.label_inj]
    split <;> simp [*]
  rw [hinvalid]
  cases o <;> decide

/-- Only the first argument matters. -/
theorem run_cons (c : Checker) (path : Text) (rest : List Text) (w : Workspace) :
    run c (path :: rest) w = ((patch c path w).1.map exitStatus, (patch c path w).2) :=
  rfl

theorem result_run_eq_one_iff {path : Text} {rest : List Text} :
    (run c (path :: rest) w).1.result = .ok 1 ↔ (patch c path w).1.result = .ok .invalid := by
  rw [run_cons, Transcript.result_map_eq_ok_iff]
  simp only [exitStatus_eq_one_iff, exists_eq_right]

theorem result_run_eq_zero_iff {path : Text} {rest : List Text} :
    (run c (path :: rest) w).1.result = .ok 0 ↔
      (patch c path w).1.result = .ok .patched ∨ (patch c path w).1.result = .ok .noMatch := by
  rw [run_cons, Transcript.result_map_eq_ok_iff]
  simp only [exitStatus_eq_zero_iff, and_or_left, exists_or, exists_eq_right]

/-- The status of a run loses nothing when a process ends with it. -/
theorem exitCode_of_result_run {status : Int} (h : (run c args w).1.result = .ok status) :
    exitCode status = status := by
  cases args with
  | nil => cases h; rfl
  | cons path rest =>
    rw [run_cons, Transcript.result_map_eq_ok_iff] at h
    obtain ⟨o, -, rfl⟩ := h
    unfold exitStatus
    split <;> rfl

theorem main_of_head? {argv : List Text} {args : Option (List Text)} {path : Text}
    (h : (args.getD argv.tail).head? = some path) :
    main c args argv w = ((patch c path w).1.map exitStatus, (patch c path w).2) := by
  obtain ⟨rest, hargs⟩ := List.head?_eq_some_iff.1 h
  rw [main, hargs, run_cons]

theorem snd_main_of_head?_eq_none {argv : List Text} {args : Option (List Text)}
    (h : (args.getD argv.tail).head? = none) : (main c args argv w).2 = w := by
  rw [main, List.head?_eq_none_iff.1 h]
  rfl

theorem launch_eq_main (c : Checker) (argv : List Text) (w : Workspace) :
    launch c argv w = main c none argv w := by
  have hmap : (main c none argv w).1.map exitCode = (main c none argv w).1 :=
    Transcript.map_eq_self fun status h => exitCode_of_result_run h
  unfold launch
  dsimp only
  rw [hmap]

/-- A run that does not end with status 0 leaves the workspace as it was. -/
theorem snd_run_of_ne_zero (h : (run c args w).1.result ≠ .ok 0) : (run c args w).2 = w := by
  cases args with
  | nil => rfl
  | cons path rest =>
    exact snd_patch_of_ne_patched fun hp => h (result_run_eq_zero_iff.2 (.inl hp))

end CommandLine

/-! ## Sessions -/

/-- The command with its arguments in the place of an argument vector. -/
def Command.direct : Command → Command
  | main args argv => main (some (args.getD argv.tail))
  | launch argv => main (some argv.tail)
  | command => command

theorem Command.run_direct (c : Checker) (command : Command) (w : Workspace) :
    command.direct.run c w = command.run c w := by
  cases command with
  | launch argv =>
    unfold direct run
    dsimp only
    rw [CommandLine.launch_eq_main]
    rfl
  | main args argv => cases args <;> rfl
  | patch path | check content filename | save path content => rfl

theorem Session.run_direct (steps : List (Checker × Command)) (w : Workspace) :
    run (steps.map fun s => (s.1, s.2.direct)) w = run steps w := by
  induction steps generalizing w with
  | nil => rfl
  | cons s steps ih =>
    obtain ⟨c, command⟩ := s
    simp only [List.map_cons, run, step, Command.run_direct, ih]

namespace CommandLine

/-- It makes no difference whether the command is called with arguments, or without in a process
that has them, or is that process. Without arguments the command prints how it is called. Else it
does what a patch of the first argument does, and the exit status is 1 after an invalid patch and 0
after any other that did not fail. After status 1 and after a failure the workspace is as it was. -/
theorem entry_points_agree (c : Checker) (w : Workspace) :
    (launch c [] w = run c [] w ∧ ∀ x args, launch c (x :: args) w = run c args w) ∧
    (main c none [] w = run c [] w ∧ ∀ x args, main c none (x :: args) w = run c args w) ∧
    (∀ args argv, main c (some args) argv w = run c args w) ∧
    (∀ steps, Session.run (steps.map fun s => (s.1, s.2.direct)) w = Session.run steps w) ∧
    run c [] w = (⟨.ok 1, usage.line, [], none⟩, w) ∧
    (∀ path rest,
      let p := patch c path w
      let t := (run c (path :: rest) w).1
      run c (path :: rest) w = run c [path] w ∧ (run c (path :: rest) w).2 = p.2 ∧
        (t.stdout, t.stderr, t.invocation) = (p.1.stdout, p.1.stderr, p.1.invocation) ∧
        (t.result = .ok 1 ↔ p.1.result = .ok .invalid) ∧
        (t.result = .ok 0 ↔ p.1.result = .ok .patched ∨ p.1.result = .ok .noMatch) ∧
        ∀ e, t.result = .error e ↔ p.1.result = .error e) ∧
    ∀ args, ((run c args w).1.result = .ok 1 ∨ ∃ e, (run c args w).1.result = .error e) →
      (run c args w).2 = w := by
  refine ⟨⟨launch_eq_main c [] w, fun x args => launch_eq_main c (x :: args) w⟩,
    ⟨rfl, fun _ _ => rfl⟩, fun _ _ => rfl, fun steps => Session.run_direct steps w, rfl, ?_, ?_⟩
  · intro path rest p t
    exact ⟨rfl, rfl, rfl, result_run_eq_one_iff, result_run_eq_zero_iff,
      fun _ => Transcript.result_map_eq_error_iff⟩
  · intro args h
    apply snd_run_of_ne_zero
    intro h0
    rcases h with h1 | ⟨e, he⟩
    · rw [h0] at h1
      exact absurd h1 (by decide)
    · rw [h0] at he
      cases he

/-- A patch that the checking program rejects, entered as a process. -/
theorem entry_points_agree_rejected :
    let old : Bytes := Utf8.encode (Catalogue.editorList ++ Catalogue.editorListGuard)
    let w : Workspace := .ofFile ['a'] old
    let node : Checker := .answers [] [] 1
    (launch node [[], ['a'], ['b']] w).1.result = .ok 1 ∧
      (launch node [[], ['a'], ['b']] w).2 = w ∧
      (patch node ['a'] w).1.result = .ok .invalid := by
  intro old w node
  have hread : w.files.read ['a'] = .ok old := by decide +kernel
  have hinvalid : (patch node ['a'] w).1.result = .ok .invalid :=
    (result_patch hread).trans (by decide +kernel)
  obtain ⟨⟨-, hlaunch⟩, -, -, -, -, hpatch, hkept⟩ := entry_points_agree node w
  obtain ⟨-, -, -, hone, -⟩ := hpatch ['a'] [['b']]
  have hresult : (run node [['a'], ['b']] w).1.result = .ok 1 := hone.2 hinvalid
  rw [hlaunch]
  exact ⟨hresult, hkept _ (.inl hresult), hinvalid⟩

end CommandLine

end BundlePatch
