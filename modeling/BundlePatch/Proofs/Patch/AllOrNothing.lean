import BundlePatch.Patch
import BundlePatch.Proofs.Patch.Script

/-!
# All or nothing

A run that patches has had the very bytes checked that it then writes: `check_ok` says what
an accepted check was started on, `patch_patched` all that a patching run has done. Every
other run leaves the workspace as it was, and no run touches any other file
(`patch_all_or_nothing`).
-/

namespace BundlePatch

/-! ## The check -/

/-- The program accepts nothing but what it was started on, and that is the text to be checked. -/
theorem check_ok (c : Checker) (content filename : Text) (w : Workspace)
    (h : (check c content filename w).1.result = .ok ()) :
    ∃ stdout stderr, c = .answers stdout stderr 0 ∧
      (check c content filename w).1.invocation =
        some ⟨scriptName filename, Utf8.encode content⟩ := by
  obtain ⟨hsave, stdout, stderr, hc, -⟩ := result_check_eq_ok_iff.1 h
  exact ⟨stdout, stderr, hc, invocation_check_eq_some_iff.2 ⟨hsave, ⟨_, _, _, hc⟩, rfl⟩⟩

/-! ## The run -/

theorem validate_patched {c : Checker} {path content report : Text} {w : Workspace}
    (h : (validate c path content report w).1.result = .ok .patched) :
    ∃ stdout stderr files, c = .answers stdout stderr 0 ∧
      w.files.write path (Utf8.encode content) = .ok files ∧
      (validate c path content report w).1.invocation =
        some ⟨scriptName path, Utf8.encode content⟩ ∧
      (validate c path content report w).2 = { w with files } := by
  have hw := check_snd c content path w
  have hok := check_ok c content path w
  unfold validate at h ⊢
  generalize check c content path w = r at h hw hok ⊢
  obtain ⟨⟨result, invocation⟩, w'⟩ := r
  obtain rfl : w' = w := hw
  dsimp only at h hok ⊢
  cases result with
  | error e => cases e <;> cases h
  | ok u =>
    obtain ⟨stdout, stderr, rfl, rfl⟩ := hok rfl
    dsimp only at h ⊢
    cases hf : w'.files.write path (Utf8.encode content) with
    | error e => rw [hf] at h; cases h
    | ok files => exact ⟨stdout, stderr, files, rfl, rfl, rfl, rfl⟩

theorem result_validate_ne_noMatch (c : Checker) (path content report : Text) (w : Workspace) :
    (validate c path content report w).1.result ≠ .ok .noMatch := by
  unfold validate
  generalize check c content path w = r
  obtain ⟨⟨result, invocation⟩, w'⟩ := r
  intro h
  dsimp only at h
  cases result with
  | error e => cases e <;> cases h
  | ok u =>
    dsimp only at h
    split at h <;> cases h

theorem patch_of_malformed {c : Checker} {path : Text} {w : Workspace} {bytes : Bytes}
    {fault : Utf8.Fault} (h : w.files.read path = .ok bytes)
    (hd : Utf8.decode bytes = .error fault) :
    patch c path w = (.silent (.error (.malformed fault)), w) :=
  patch_of_ofBytes_error h (Text.ofBytes_of_malformed hd)

theorem patch_of_decode {c : Checker} {path text : Text} {w : Workspace} {bytes : Bytes}
    (h : w.files.read path = .ok bytes) (hd : Utf8.decode bytes = .ok text) :
    patch c path w = patchText c path text w := by
  rw [patch, h]
  dsimp only
  rw [Text.ofBytes_of_decode hd]

/-- A run ends at once, or it has read a text. -/
theorem patch_cases (c : Checker) (path : Text) (w : Workspace) :
    (∃ e, patch c path w = (.silent (.error e), w)) ∨
      ∃ l text, w.files.spot path = .ok (.file l (Utf8.encode text)) ∧
        patch c path w = patchText c path text w := by
  cases hread : w.files.read path with
  | error e => exact .inl ⟨e, patch_of_read_error hread⟩
  | ok old =>
    cases hdecode : Utf8.decode old with
    | error fault => exact .inl ⟨_, patch_of_malformed hread hdecode⟩
    | ok text =>
      obtain ⟨l, hspot⟩ := Store.read_eq_ok_iff.1 hread
      rw [Utf8.decode_eq_ok_iff.1 hdecode] at hspot
      exact .inr ⟨l, text, hspot, patch_of_decode hread hdecode⟩

/-- All that a run has done that patches a file. -/
theorem patch_patched {c : Checker} {path : Text} {w : Workspace}
    (h : (patch c path w).1.result = .ok .patched) :
    ∃ l text stdout stderr, w.files.spot path = .ok (.file l (Utf8.encode text)) ∧
      (Pass.run Catalogue.rules text).content ≠ text ∧ c = .answers stdout stderr 0 ∧
      (patch c path w).1.invocation =
        some ⟨scriptName path, Utf8.encode (Pass.run Catalogue.rules text).content⟩ ∧
      (patch c path w).2 = { w with
        files := w.files.set l (Utf8.encode (Pass.run Catalogue.rules text).content) } := by
  rcases patch_cases c path w with ⟨e, he⟩ | ⟨l, text, hspot, he⟩
  · rw [he] at h
    cases h
  · rw [he] at h ⊢
    unfold patchText at h ⊢
    by_cases hsame : (Pass.run Catalogue.rules text).content = text
    · dsimp only at h
      rw [if_pos hsame] at h
      cases h
    · dsimp only at h ⊢
      rw [if_neg hsame] at h ⊢
      obtain ⟨stdout, stderr, files, hc, hwrite, hinv, hw⟩ := validate_patched h
      obtain ⟨p, l', hp, hl', rfl⟩ := Store.write_eq_ok_iff.1 hwrite
      rw [hspot] at hp
      cases hp
      cases hl'
      exact ⟨l, text, stdout, stderr, hspot, hsame, hc, hinv, hw⟩

theorem invocation_patch_noMatch {c : Checker} {path : Text} {w : Workspace}
    (h : (patch c path w).1.result = .ok .noMatch) : (patch c path w).1.invocation = none := by
  rcases patch_cases c path w with ⟨e, he⟩ | ⟨l, text, -, he⟩
  · rw [he]
    rfl
  · rw [he] at h ⊢
    unfold patchText at h ⊢
    dsimp only at h ⊢
    split at h
    · rename_i hsame
      rw [if_pos hsame]
    · exact absurd h (result_validate_ne_noMatch c path _ _ w)

/-! ## All or nothing -/

/-- The second workspace is the first, but for the content of the file that the path names. -/
structure Workspace.ChangesOnly (path : Text) (w w' : Workspace) : Prop where
  here : w'.files.here = w.files.here
  others : ∀ l, (∀ b, w.files.spot path ≠ .ok (.file l b)) → w'.files.get? l = w.files.get? l
  locations : w'.files.locations = w.files.locations
  directories : w'.files.directories = w.files.directories
  scratch : w'.scratch = w.scratch

theorem Workspace.ChangesOnly.refl (path : Text) (w : Workspace) : w.ChangesOnly path w :=
  ⟨rfl, fun _ _ => rfl, rfl, rfl, rfl⟩

theorem Workspace.changesOnly_set {path : Text} {w : Workspace} {l : Location} {b : Bytes}
    (h : w.files.spot path = .ok (.file l b)) (b' : Bytes) :
    w.ChangesOnly path { w with files := w.files.set l b' } where
  here := rfl
  others := by
    intro l' hl'
    have hne : l' ≠ l := by
      rintro rfl
      exact hl' b h
    exact Store.get?_set_of_ne hne w.files b'
  locations := Store.locations_set (by rw [Store.get?_of_spot h]; rfl) b'
  directories := rfl
  scratch := rfl

theorem changesOnly_patch (c : Checker) (path : Text) (w : Workspace) :
    w.ChangesOnly path (patch c path w).2 := by
  by_cases h : (patch c path w).1.result = .ok .patched
  · obtain ⟨l, text, stdout, stderr, hspot, -, -, -, hw⟩ := patch_patched h
    rw [hw]
    exact Workspace.changesOnly_set hspot _
  · rw [snd_patch_of_ne_patched h]
    exact .refl path w

/-- A run changes nothing but the file that the path names, and that file only if it patches it. It
has then had the new content checked, byte for byte, and that is one pass over the old text. -/
theorem patch_all_or_nothing (c : Checker) (path : Text) (w : Workspace) :
    let t := (patch c path w).1
    let w' := (patch c path w).2
    w.ChangesOnly path w' ∧
      (w'.files.read path ≠ w.files.read path ↔ t.result = .ok .patched) ∧
      (t.result ≠ .ok .patched → w' = w) ∧
      (t.result = .ok .patched → ∃ old text stdout stderr,
        w.files.read path = .ok old ∧ Utf8.decode old = .ok text ∧
        c = .answers stdout stderr 0 ∧
        t.invocation =
          some ⟨scriptName path, Utf8.encode (Pass.run Catalogue.rules text).content⟩ ∧
        w'.files.read path = .ok (Utf8.encode (Pass.run Catalogue.rules text).content)) ∧
      (t.result = .ok .noMatch → t.invocation = none) := by
  intro t w'
  by_cases h : t.result = .ok .patched
  · obtain ⟨l, text, stdout, stderr, hspot, hne, hc, hinv, hw⟩ := patch_patched h
    have hw : w' = _ := hw
    have hold : w.files.read path = .ok (Utf8.encode text) := Store.read_eq_ok_iff.2 ⟨l, hspot⟩
    have hnew : w'.files.read path =
        .ok (Utf8.encode (Pass.run Catalogue.rules text).content) := by
      rw [hw]
      exact Store.read_eq_ok_iff.2 ⟨l, Store.spot_set hspot rfl _⟩
    have hdiff : w'.files.read path ≠ w.files.read path := by
      rw [hold, hnew]
      intro e
      exact hne (Utf8.encode_inj (Except.ok.inj e))
    refine ⟨?_, ⟨fun _ => h, fun _ => hdiff⟩, fun hn => absurd h hn, fun _ => ?_, fun hm => ?_⟩
    · rw [hw]
      exact Workspace.changesOnly_set hspot _
    · exact ⟨_, text, stdout, stderr, hold, Utf8.decode_encode text, hc, hinv, hnew⟩
    · exact invocation_patch_noMatch hm
  · have hw : w' = w := snd_patch_of_ne_patched h
    refine ⟨?_, ⟨fun hd => ?_, fun hp => absurd hp h⟩, fun _ => hw, fun hp => absurd hp h,
      invocation_patch_noMatch⟩
    · rw [hw]
      exact Workspace.ChangesOnly.refl path w
    · exact absurd (by rw [hw]) hd

/-- An accepted run: one file, with a guarded editor list. -/
example :
    let w : Workspace :=
      .ofFile ['a'] (Utf8.encode (Catalogue.editorList ++ Catalogue.editorListGuard))
    (patch (.answers [] [] 0) ['a'] w).2 = .ofFile ['a'] (Utf8.encode Catalogue.editorList) := by
  decide +kernel

end BundlePatch
