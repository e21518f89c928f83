import BundlePatch.Catalogue
import BundlePatch.Proofs.Pattern.Marks
import Mathlib.Data.List.Nodup
import Mathlib.Data.List.Pairwise

/-!
# The phrases of the rules

The candidates and the replacements of the rules are made of thirteen phrases. No two of
them overlap, and none overlaps itself (`Phrase.apart`, `Phrase.clear`). The same then
holds of what is spelled with them (`apart_spell`, `clear_spell`), so from here on the
rules are compared as lists of phrases (`map_spelled_outlines`).

The check of the phrases runs over their code points. `Listed t` holds these as a list that the
kernel can read, since it is slow at taking a string apart.
-/

namespace BundlePatch.Catalogue

open Pattern

/-! ## Listed texts -/

/-- The code points of the text, one by one. -/
abbrev Listed (t : Text) := { chars : List Char // t = chars }

namespace Listed

def literal {s : String} {l : List Char} (h : s = String.ofList l) : Listed s.toList :=
  ⟨l, by rw [h, String.toList_ofList]⟩

def pieces {ps : List String} (ls : List (List Char)) (h : ps = ls.map String.ofList) :
    Listed (Text.ofPieces ps) :=
  ⟨ls.flatten, by
    rw [h, Text.ofPieces, List.flatMap_map, List.flatten_eq_flatMap]
    exact congrArg (List.flatMap · ls) (funext fun _ => String.toList_ofList)⟩

def append {s t : Text} (hs : Listed s) (ht : Listed t) : Listed (s ++ t) :=
  ⟨hs.val ++ ht.val, by rw [← hs.property, ← ht.property]⟩

def lookup {c : Text} (hc : Listed c) : Listed (Detector.lookup c) :=
  append (append (literal rfl) hc) (literal rfl)

def bareDetector {p : Text} (hp : Listed p) : Listed (oldDetector [] p) :=
  append (append (literal rfl) ⟨[], rfl⟩) hp

def oldDetector {c d p : Text} (hc : Listed c) (hd : Listed d) (hp : Listed p) :
    Listed (oldDetector [c, d] p) :=
  let before {c : Text} (hc : Listed c) : Listed (Detector.lookup c ++ "||".toList) :=
    append (lookup hc) (literal rfl)
  append (append (literal rfl) (append (before hc) (append (before hd) ⟨[], rfl⟩))) hp

def lookups {a b c d : Text} (ha : Listed a) (hb : Listed b) (hc : Listed c) (hd : Listed d) :
    Listed (Detector.lookups [a, b, c, d]) :=
  append (lookup ha) (append (literal rfl) (append (lookup hb) (append (literal rfl)
    (append (lookup hc) (append (literal rfl) (append (lookup hd) ⟨[], rfl⟩))))))

def closure {d : Detector} (he : Listed d.envVar) (hc : Listed (Detector.lookups d.commands))
    (hp : Listed d.appPaths) : Listed d.closure :=
  append (append (append (append (append (append (literal rfl) he) (pieces [_, _] rfl)) hc)
    (literal rfl)) hp) (literal rfl)

end Listed

/-! ## Phrases -/

/-- The indivisible parts of the rules. The old detectors come with lookups and bare. -/
inductive Phrase
  | macGuard
  | windowsGuard
  | editorList
  | editorListGuard
  | oldLookup
  | oldLookupGuarded
  | newLookup
  | oldVscode
  | bareVscode
  | newVscode
  | oldInsiders
  | bareInsiders
  | newInsiders
  deriving DecidableEq, Repr

namespace Phrase

def all : List Phrase :=
  [macGuard, windowsGuard, editorList, editorListGuard, oldLookup, oldLookupGuarded, newLookup,
    oldVscode, bareVscode, newVscode, oldInsiders, bareInsiders, newInsiders]

theorem mem_all (m : Phrase) : m ∈ all := by
  cases m <;> decide

def text : Phrase → Text
  | macGuard => Catalogue.macGuard
  | windowsGuard => Catalogue.windowsGuard
  | editorList => Catalogue.editorList
  | editorListGuard => Catalogue.editorListGuard
  | oldLookup => Catalogue.oldLookup
  | oldLookupGuarded => Catalogue.oldLookupGuarded
  | newLookup => Catalogue.newLookup
  | oldVscode => oldDetector ["code".toList, "codium".toList] vscodeAppPaths
  | bareVscode => oldDetector [] vscodeAppPaths
  | newVscode => vscode.closure
  | oldInsiders =>
    oldDetector ["code-insiders".toList, "codium-insiders".toList] vscodeInsidersAppPaths
  | bareInsiders => oldDetector [] vscodeInsidersAppPaths
  | newInsiders => vscodeInsiders.closure

def lookupBody : Listed oldLookupBody := .pieces [_, _, _, _, _, _] rfl

def appPaths : Listed vscodeAppPaths := .pieces [_, _, _] rfl

def insidersAppPaths : Listed vscodeInsidersAppPaths := .pieces [_, _, _, _] rfl

def listed : (m : Phrase) → Listed m.text
  | macGuard => .pieces [_, _] rfl
  | windowsGuard => .pieces [_, _] rfl
  | editorList => .literal rfl
  | editorListGuard => .literal rfl
  | oldLookup => .append (.literal rfl) lookupBody
  | oldLookupGuarded => .append (.append (.literal rfl) (.literal rfl)) lookupBody
  | newLookup => .pieces [_, _, _, _, _, _, _, _, _, _, _, _] rfl
  | oldVscode => .oldDetector (.literal rfl) (.literal rfl) appPaths
  | bareVscode => .bareDetector appPaths
  | newVscode =>
    .closure (.literal rfl)
      (.lookups (.literal rfl) (.literal rfl) (.literal rfl) (.literal rfl)) appPaths
  | oldInsiders => .oldDetector (.literal rfl) (.literal rfl) insidersAppPaths
  | bareInsiders => .bareDetector insidersAppPaths
  | newInsiders =>
    .closure (.literal rfl)
      (.lookups (.literal rfl) (.literal rfl) (.literal rfl) (.literal rfl)) insidersAppPaths

/-- The code points of the phrase. -/
def chars (m : Phrase) : List Char := m.listed.val

theorem text_eq_chars (m : Phrase) : m.text = m.chars := m.listed.property

theorem pairwise_apart : all.Pairwise fun m m' => Apart m.chars m'.chars := by
  decide +kernel

theorem chars_clear : ∀ m ∈ all, Clear m.chars m.chars := by
  decide +kernel

theorem sixteen_le_chars : ∀ m ∈ all, 16 ≤ m.chars.length := by
  decide +kernel

theorem apart {m m' : Phrase} (h : m ≠ m') : Apart m.text m'.text := by
  have symm : Std.Symm fun m m' : Phrase => Apart m.chars m'.chars := ⟨fun _ _ h => h.symm⟩
  rw [text_eq_chars, text_eq_chars]
  exact pairwise_apart.forall (mem_all m) (mem_all m') h

theorem clear (m : Phrase) : Clear m.text m.text := by
  rw [text_eq_chars]
  exact chars_clear m (mem_all m)

theorem sixteen_le_length (m : Phrase) : 16 ≤ m.text.length := by
  rw [text_eq_chars]
  exact sixteen_le_chars m (mem_all m)

theorem text_ne_nil (m : Phrase) : m.text ≠ [] := by
  apply List.ne_nil_of_length_pos
  have := m.sixteen_le_length
  omega

end Phrase

/-! ## Spelling -/

/-- The text of the phrases, one after the other. -/
def spell (ms : List Phrase) : Text := ms.flatMap Phrase.text

theorem spell_nil : spell [] = [] := rfl

theorem spell_cons (m : Phrase) (ms : List Phrase) : spell (m :: ms) = m.text ++ spell ms := rfl

theorem spell_singleton (m : Phrase) : spell [m] = m.text := List.append_nil _

theorem spell_eq_chars (ms : List Phrase) : spell ms = ms.flatMap Phrase.chars :=
  congrArg (List.flatMap · ms) (funext Phrase.text_eq_chars)

theorem Phrase.apart_spell {m : Phrase} {ms : List Phrase} (hm : m ∉ ms) (h : ms ≠ []) :
    Apart m.text (spell ms) := by
  induction ms with
  | nil => exact absurd rfl h
  | cons m' ms ih =>
    have hm' : Apart m.text m'.text := Phrase.apart fun e => hm (e ▸ List.mem_cons_self)
    by_cases hms : ms = []
    · rwa [hms, spell_singleton]
    · exact hm'.append (ih (fun hi => hm (List.mem_cons_of_mem _ hi)) hms)

theorem spell_append (ms ms' : List Phrase) : spell (ms ++ ms') = spell ms ++ spell ms' :=
  List.flatMap_append

theorem sixteen_le_length_spell {ms : List Phrase} (h : ms ≠ []) : 16 ≤ (spell ms).length := by
  obtain ⟨m, ms, rfl⟩ := List.exists_cons_of_ne_nil h
  have := m.sixteen_le_length
  rw [spell_cons, List.length_append]
  omega

/-- Texts spelled with different phrases keep apart. -/
theorem apart_spell {ms ms' : List Phrase} (h : ∀ m ∈ ms, m ∉ ms') (hm : ms ≠ [])
    (hm' : ms' ≠ []) : Apart (spell ms) (spell ms') := by
  induction ms with
  | nil => exact absurd rfl hm
  | cons m ms ih =>
    have hd : Apart m.text (spell ms') := Phrase.apart_spell (h m List.mem_cons_self) hm'
    by_cases hms : ms = []
    · rwa [hms, spell_singleton]
    · have hr : Apart (spell ms) (spell ms') :=
        ih (fun m hi => h m (List.mem_cons_of_mem _ hi)) hms
      exact (hd.symm.append hr.symm).symm

/-- A text spelled without repetition does not overlap itself. -/
theorem clear_spell {ms : List Phrase} (h : ms.Nodup) (hm : ms ≠ []) :
    Clear (spell ms) (spell ms) := by
  obtain ⟨m, ms, rfl⟩ := List.exists_cons_of_ne_nil hm
  by_cases hms : ms = []
  · rw [hms, spell_singleton]
    exact m.clear
  · exact m.clear.append_self (Phrase.apart_spell (List.nodup_cons.1 h).1 hms)

/-- Texts that are each spelled without repetition, and with different phrases. -/
def spelledBlocks (mss : List (List Phrase)) (hne : ∀ ms ∈ mss, ms ≠ [] ∧ ms.Nodup)
    (hd : ∀ ms ∈ mss, ∀ ms' ∈ mss, ms = ms' ∨ ∀ m ∈ ms, m ∉ ms') : Blocks Char where
  patterns := mss.map spell
  ne_nil := by
    intro x hx
    obtain ⟨ms, hms, rfl⟩ := List.mem_map.1 hx
    have := sixteen_le_length_spell (hne ms hms).1
    exact List.length_pos_iff.1 (by omega)
  clear := by
    intro x hx y hy
    obtain ⟨ms, hms, rfl⟩ := List.mem_map.1 hx
    obtain ⟨ms', hms', rfl⟩ := List.mem_map.1 hy
    rcases hd ms hms ms' hms' with rfl | h
    · exact clear_spell (hne ms hms).2 (hne ms hms).1
    · exact (apart_spell h (hne ms hms).1 (hne ms' hms').1).clear
  alike := by
    intro x hx y hy ha
    obtain ⟨ms, hms, rfl⟩ := List.mem_map.1 hx
    obtain ⟨ms', hms', rfl⟩ := List.mem_map.1 hy
    rcases hd ms hms ms' hms' with rfl | h
    · rfl
    · have := sixteen_le_length_spell (hne ms' hms').1
      have hy0 : spell ms' ≠ [] := List.length_pos_iff.1 (by omega)
      exact absurd ha ((apart_spell h (hne ms hms).1 (hne ms' hms').1).not_agree hy0)

/-! ## Outlines -/

/-- The rule on texts that a rule on phrases stands for. -/
def spelled (r : Rule Phrase) : Rule Char where
  name := r.name
  candidates := r.candidates.map spell
  replacement := spell r.replacement

namespace Outline

def macEditorGuard : Rule Phrase := ⟨"macos-editor-guard", [[.macGuard]], []⟩

def windowsEditorGuard : Rule Phrase := ⟨"windows-editor-guard", [[.windowsGuard]], []⟩

def unguardEditorList : Rule Phrase :=
  ⟨"editor-list-guard", [[.editorList, .editorListGuard]], [.editorList]⟩

def resolveCommand : Rule Phrase :=
  ⟨"resolve-command", [[.oldLookup], [.oldLookupGuarded]], [.newLookup]⟩

def detectVscode : Rule Phrase :=
  ⟨"vscode-detect", [[.oldVscode], [.bareVscode]], [.newVscode]⟩

def detectVscodeInsiders : Rule Phrase :=
  ⟨"vscode-insiders-detect", [[.oldInsiders], [.bareInsiders]], [.newInsiders]⟩

end Outline

/-- The rules, written with phrases. -/
def outlines : List (Rule Phrase) :=
  [Outline.macEditorGuard, Outline.windowsEditorGuard, Outline.unguardEditorList,
    Outline.resolveCommand, Outline.detectVscode, Outline.detectVscodeInsiders]

theorem spelled_macEditorGuard : spelled Outline.macEditorGuard = macEditorGuard := by
  simp only [spelled, Outline.macEditorGuard, List.map_cons, List.map_nil, spell_singleton]
  rfl

theorem spelled_windowsEditorGuard : spelled Outline.windowsEditorGuard = windowsEditorGuard := by
  simp only [spelled, Outline.windowsEditorGuard, List.map_cons, List.map_nil, spell_singleton]
  rfl

theorem spelled_unguardEditorList : spelled Outline.unguardEditorList = unguardEditorList := by
  simp only [spelled, Outline.unguardEditorList, List.map_cons, List.map_nil, spell_cons, spell_nil,
    List.append_nil]
  rfl

theorem spelled_resolveCommand : spelled Outline.resolveCommand = resolveCommand := by
  simp only [spelled, Outline.resolveCommand, List.map_cons, List.map_nil, spell_singleton]
  rfl

theorem spelled_detectVscode : spelled Outline.detectVscode = detectVscode := by
  simp only [spelled, Outline.detectVscode, List.map_cons, List.map_nil, spell_singleton]
  rfl

theorem spelled_detectVscodeInsiders :
    spelled Outline.detectVscodeInsiders = detectVscodeInsiders := by
  simp only [spelled, Outline.detectVscodeInsiders, List.map_cons, List.map_nil, spell_singleton]
  rfl

theorem map_spelled_outlines : outlines.map spelled = rules := by
  simp only [outlines, List.map_cons, List.map_nil, spelled_macEditorGuard,
    spelled_windowsEditorGuard, spelled_unguardEditorList, spelled_resolveCommand,
    spelled_detectVscode, spelled_detectVscodeInsiders, rules]

theorem outlines_nodup : outlines.Nodup := by
  decide

/-- Each rule stands once among the rules. -/
theorem exists_rules_split {p : Rule Phrase} (hp : p ∈ outlines) :
    ∃ before after, outlines = before ++ p :: after ∧
      rules = before.map spelled ++ spelled p :: after.map spelled ∧ p ∉ before ++ after := by
  obtain ⟨before, after, e⟩ := List.append_of_mem hp
  refine ⟨before, after, e, ?_, (List.nodup_middle.1 (e ▸ outlines_nodup)).notMem⟩
  rw [← map_spelled_outlines, e, List.map_append, List.map_cons]

/-- The same rule as `spelled` gives, with texts that the kernel can read. -/
def spelledOut (r : Rule Phrase) : Rule Char where
  name := r.name
  candidates := r.candidates.map fun ms => ms.flatMap Phrase.chars
  replacement := r.replacement.flatMap Phrase.chars

theorem spelled_eq_spelledOut : spelled = spelledOut := by
  funext r
  rw [spelled, spelledOut, spell_eq_chars, funext spell_eq_chars]

theorem rules_eq_spelledOut : rules = outlines.map spelledOut := by
  rw [← map_spelled_outlines, spelled_eq_spelledOut]

end BundlePatch.Catalogue
