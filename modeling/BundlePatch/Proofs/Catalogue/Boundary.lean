import BundlePatch.Proofs.Catalogue.Firing
import BundlePatch.Proofs.Pattern.Placed
import BundlePatch.Proofs.Rewriting.Draining

/-!
# Guards that begin a statement

In general, removing an editor guard may join two halves of another. Neither guard has a boundary
of statements inside, though, so this cannot happen where each of them stands right after one, as
in a whole bundle. No rule changes that (`guardsPlaced_edit`): what the later rules insert
ends in a brace. Each pass then removes one guard of either kind (`guards_run_out`).
-/

namespace BundlePatch.Catalogue

open Pattern

/-- A statement can begin after a brace, a semicolon and a line feed. -/
def boundary : List Char := ['\x7b', '\x7d', ';', '\n']

def guardPhrases : List Phrase := [.macGuard, .windowsGuard]

/-- Each editor guard in the text begins a statement. -/
def GuardsPlaced (s : Text) : Prop := ∀ m ∈ guardPhrases, Placed boundary m.text s

theorem guardsPlaced_iff {s : Text} :
    GuardsPlaced s ↔ Placed boundary macGuard s ∧ Placed boundary windowsGuard s := by
  simp [GuardsPlaced, guardPhrases, Phrase.text]

/-! ## Phrases -/

theorem guardOutlines_shape :
    ∀ p ∈ guardOutlines, ∃ m ∈ guardPhrases, p.candidates = [[m]] ∧ p.replacement = [] := by
  decide

/-- The two guards are removed by two rules. -/
theorem guardOutlines_candidates :
    ∀ p ∈ guardOutlines, ∀ q ∈ guardOutlines, p ≠ q → p.candidates ≠ q.candidates := by
  decide

theorem laterOutlines_replacement_guards :
    ∀ p ∈ laterOutlines, p.replacement ≠ [] ∧ ∀ m ∈ guardPhrases, m ∉ p.replacement := by
  decide

-- `List.all` here, since a decision of `∀ c` might go through all characters.
theorem all_not_mem_boundary : ∀ m ∈ guardPhrases, m.chars.dropLast.all fun c => c ∉ boundary := by
  decide +kernel

theorem not_mem_boundary_of_mem_guard {m : Phrase} (hm : m ∈ guardPhrases) :
    ∀ c ∈ m.text.dropLast, c ∉ boundary := by
  intro c hc
  rw [m.text_eq_chars] at hc
  exact of_decide_eq_true (List.all_eq_true.1 (all_not_mem_boundary m hm) c hc)

theorem endsIn_later_replacement :
    ∀ p ∈ laterOutlines, EndsIn boundary (p.replacement.flatMap Phrase.chars) := by
  decide +kernel

/-! ## Edits -/

theorem spelled_guard {p : Rule Phrase} (hp : p ∈ guardOutlines) :
    ∃ m ∈ guardPhrases, p.candidates = [[m]] ∧ (spelled p).candidates = [m.text] ∧
      (spelled p).replacement = [] := by
  obtain ⟨m, hm, hk, hr⟩ := guardOutlines_shape p hp
  refine ⟨m, hm, hk, ?_, ?_⟩
  · simp only [spelled, hk, List.map_cons, List.map_nil, spell_singleton]
  · rw [spelled, hr, spell_nil]

/-- A guard is taken out at the beginning of a statement. -/
theorem removal_of_edit {p : Rule Phrase} (hp : p ∈ guardOutlines) {s t : Text}
    (h : (spelled p).Edit s t) (hs : GuardsPlaced s) :
    ∃ m ∈ guardPhrases, p.candidates = [[m]] ∧ (spelled p).candidates = [m.text] ∧
      ∃ b a, s = b ++ m.text ++ a ∧ t = b ++ a ∧ EndsIn boundary b := by
  obtain ⟨m, hm, hp, hk, hr⟩ := spelled_guard hp
  obtain ⟨b, a, hmem⟩ := h
  rw [hk, List.mem_singleton] at hmem
  subst hmem
  exact ⟨m, hm, hp, hk, b, a, rfl, by rw [hr, List.append_nil], hs m hm b a rfl⟩

theorem guardsPlaced_edit {r : Rule Char} (hr : r ∈ rules) {s t : Text} (h : r.Edit s t)
    (hs : GuardsPlaced s) : GuardsPlaced t := by
  obtain ⟨p, hp, rfl⟩ := outline_of_mem_rules hr
  intro m hm
  rw [← guardOutlines_append] at hp
  rcases List.mem_append.1 hp with hp | hp
  · obtain ⟨m', -, -, -, b, a, rfl, rfl, hb⟩ := removal_of_edit hp h hs
    exact (hs m hm).remove hb (not_mem_boundary_of_mem_guard hm)
  · obtain ⟨b, a, -⟩ := h
    obtain ⟨hne, hn⟩ := laterOutlines_replacement_guards p hp
    have hend : EndsIn boundary (spelled p).replacement := by
      rw [spelled, spell_eq_chars]
      exact endsIn_later_replacement p hp
    exact (hs m hm).replace_of_apart (spelled_patterns_ne_nil hp _ List.mem_cons_self) hend
      (Phrase.apart_spell (hn m hm) hne)

/-! ## Counts -/

theorem starts_guard_joined {m : Phrase} (hm : m ∈ guardPhrases) {b a : Text}
    (hb : EndsIn boundary b) :
    starts [m.text] (b ++ a) = starts [m.text] b + starts [m.text] a := by
  apply starts_append_of_not_spans m.text_ne_nil
  exact not_spans_of_endsIn (not_mem_boundary_of_mem_guard hm) hb

theorem starts_guard_edit_own {p : Rule Phrase} (hp : p ∈ guardOutlines) {s t : Text}
    (h : (spelled p).Edit s t) (hs : GuardsPlaced s) :
    starts (spelled p).candidates t + 1 = starts (spelled p).candidates s := by
  obtain ⟨m, hm, -, hk, b, a, rfl, rfl, hb⟩ := removal_of_edit hp h hs
  have h0 : [] ∉ [m.text] := by simpa using m.text_ne_nil.symm
  rw [hk, starts_guard_joined hm hb,
    starts_around_of_mem h0 List.mem_cons_self (by simpa using m.clear)]

theorem starts_guard_edit_other {p q : Rule Phrase} (hp : p ∈ guardOutlines) (hq : q ∈ outlines)
    (hne : q ≠ p) {s t : Text} (h : (spelled q).Edit s t) (hs : GuardsPlaced s) :
    starts (spelled p).candidates t = starts (spelled p).candidates s := by
  rw [← guardOutlines_append] at hq
  rcases List.mem_append.1 hq with hq | hq
  · obtain ⟨m, hm, hpm, hk, -⟩ := spelled_guard hp
    obtain ⟨m', -, hqm, -, b, a, rfl, rfl, hb⟩ := removal_of_edit hq h hs
    have hmm : m ≠ m' := fun e => guardOutlines_candidates q hq p hp hne (by rw [hqm, hpm, e])
    rw [hk, starts_guard_joined hm hb,
      starts_around_of_apart m'.text_ne_nil (by simpa using Phrase.apart hmm)]
  · have hpo : p ∈ outlines := List.mem_of_mem_take hp
    have hkeeps := spelled_keeps hq hpo hne s t h
    have hlist : p ≠ Outline.unguardEditorList := fun e =>
      guardOutlines_disjoint p hp (e ▸ by decide)
    rwa [remaining_of_ne hlist] at hkeeps

/-! ## Passes -/

theorem guards_drain {p : Rule Phrase} (hp : p ∈ guardOutlines) {others : List (Rule Phrase)}
    (hothers : ∀ q ∈ others, q ∈ outlines ∧ q ≠ p) :
    Drains (spelled p) (others.map spelled) GuardsPlaced (starts (spelled p).candidates) where
  pos_iff := fun _ => starts_pos_iff
  own := fun _ _ h hs =>
    ⟨guardsPlaced_edit (spelled_mem_rules (List.mem_of_mem_take hp)) h hs,
      starts_guard_edit_own hp h hs⟩
  other := by
    intro r hr s t h hs
    obtain ⟨q, hq, rfl⟩ := List.mem_map.1 hr
    obtain ⟨hmem, hne⟩ := hothers q hq
    exact ⟨guardsPlaced_edit (spelled_mem_rules hmem) h hs,
      starts_guard_edit_other hp hmem hne h hs⟩

theorem guards_through {p : Rule Phrase} (hp : p ∈ guardOutlines) {c : Text}
    (hc : GuardsPlaced c) (k : Nat) :
    GuardsPlaced (Pass.through (List.replicate k rules) c) ∧
      starts (spelled p).candidates (Pass.through (List.replicate k rules) c) =
        starts (spelled p).candidates c - k := by
  obtain ⟨before, after, e, hrules, hn⟩ := exists_rules_split (List.mem_of_mem_take hp)
  have hothers : ∀ q ∈ before ++ after, q ∈ outlines ∧ q ≠ p := fun q hq =>
    ⟨e ▸ ((List.sublist_cons_self p after).append_left before).subset hq, fun h => hn (h ▸ hq)⟩
  have hdrain := guards_drain hp hothers
  rw [List.map_append] at hdrain
  rw [hrules]
  exact hdrain.count_through hc k

/-- Where both editor guards only stand where a statement can begin, `k` passes remove `k` of either
of them, or all that there are, and those that remain still stand so. -/
theorem guards_run_out {c : Text} (hmac : Placed boundary macGuard c)
    (hwin : Placed boundary windowsGuard c) (k : Nat) :
    let t := Pass.through (List.replicate k rules) c
    starts [macGuard] t = starts [macGuard] c - k ∧
      starts [windowsGuard] t = starts [windowsGuard] c - k ∧
      Placed boundary macGuard t ∧ Placed boundary windowsGuard t := by
  intro t
  have hc : GuardsPlaced c := guardsPlaced_iff.2 ⟨hmac, hwin⟩
  obtain ⟨ht, hcount⟩ := guards_through (p := Outline.macEditorGuard) (by decide) hc k
  obtain ⟨-, hcount'⟩ := guards_through (p := Outline.windowsEditorGuard) (by decide) hc k
  rw [spelled_macEditorGuard] at hcount
  rw [spelled_windowsEditorGuard] at hcount'
  exact ⟨hcount, hcount', guardsPlaced_iff.1 ht⟩

/-- Two guards for macOS in a row, and one for Windows on a line of its own. -/
theorem guards_run_out_adjacent :
    let c := "\x7b".toList ++ macGuard ++ macGuard ++ "\n".toList ++ windowsGuard
    let t := Pass.through (List.replicate 1 rules) c
    Placed boundary macGuard c ∧ Placed boundary windowsGuard c ∧
      starts [macGuard] t = 1 ∧ starts [windowsGuard] t = 0 ∧ Placed boundary macGuard t := by
  intro c t
  have hmac : macGuard = Phrase.macGuard.chars := Phrase.text_eq_chars .macGuard
  have hwin : windowsGuard = Phrase.windowsGuard.chars := Phrase.text_eq_chars .windowsGuard
  have hc : c = "\x7b".toList ++ Phrase.macGuard.chars ++ Phrase.macGuard.chars ++ "\n".toList ++
      Phrase.windowsGuard.chars := by
    rw [← hmac, ← hwin]
  have hplaced : Placed boundary macGuard c := by
    rw [hc, hmac]
    decide +kernel
  have hplaced' : Placed boundary windowsGuard c := by
    rw [hc, hwin]
    decide +kernel
  have hcount : starts [macGuard] c = 2 ∧ starts [windowsGuard] c = 1 := by
    rw [hc, hmac, hwin]
    decide +kernel
  obtain ⟨htwo, hone, hstill, -⟩ := guards_run_out hplaced hplaced' 1
  rw [hcount.1] at htwo
  rw [hcount.2] at hone
  exact ⟨hplaced, hplaced', htwo, hone, hstill⟩

end BundlePatch.Catalogue
