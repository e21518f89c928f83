import BundlePatch.Proofs.Catalogue.Confluence
import BundlePatch.Proofs.Rewriting.Kept
import BundlePatch.Proofs.Text.Bytewise
import BundlePatch.Text.Newline

/-!
# What no rule touches

The rules look for printable ASCII and insert nothing else (`printable_of_mem_patterns`), as
texts and as bytes (`printable_of_mem_patterns_encode`). A pass therefore keeps all that is
foreign to them in its order (`foreign_run_rules`, `foreign_run_rules_encode`), and with the
line feeds the number of lines (`lineCount_run_rules`).
-/

namespace BundlePatch

/-- The numbers of the code points from space to tilde, which are also their bytes. -/
def isPrintable (n : Nat) : Bool := 0x20 ≤ n && n ≤ 0x7E

theorem utf8EncodeChar_of_printable {c : Char} (h : isPrintable c.toNat = true) :
    String.utf8EncodeChar c = [UInt8.ofNat c.toNat] := by
  have hn : c.toNat ≤ 0x7E := by simp_all [isPrintable]
  unfold String.utf8EncodeChar
  exact if_pos (Nat.le_succ_of_le hn)

theorem printable_of_mem_encode {t : Text} (h : ∀ c ∈ t, isPrintable c.toNat = true) {b : UInt8}
    (hb : b ∈ Utf8.encode t) : isPrintable b.toNat = true := by
  obtain ⟨c, hc, hb⟩ := List.mem_flatMap.1 hb
  have hp : isPrintable c.toNat = true := h c hc
  have hn : c.toNat ≤ 0x7E := by simp_all [isPrintable]
  rw [utf8EncodeChar_of_printable hp, List.mem_singleton] at hb
  rw [hb, Utf8.toNat_byte (by omega)]
  exact hp

/-- The code points that are not printable ASCII. -/
def Text.foreign (t : Text) : Text := t.filter fun c => !isPrintable c.toNat

/-- The bytes that are not printable ASCII. -/
def Bytes.foreign (b : Bytes) : Bytes := b.filter fun b => !isPrintable b.toNat

theorem Text.lineCount_eq_of_foreign_eq {s t : Text} (h : s.foreign = t.foreign) :
    s.lineCount = t.lineCount := by
  have count_foreign (t : Text) : t.foreign.count '\n' = t.count '\n' :=
    List.count_filter (by decide)
  rw [lineCount_eq_count, lineCount_eq_count, ← count_foreign s, ← count_foreign t, h]

namespace Catalogue

theorem Phrase.all_printable : ∀ m ∈ all, (m.chars.all fun c => isPrintable c.toNat) = true := by
  decide +kernel

theorem Phrase.printable_of_mem_chars {m : Phrase} {c : Char} (h : c ∈ m.chars) :
    isPrintable c.toNat = true :=
  List.all_eq_true.1 (all_printable m m.mem_all) c h

theorem printable_of_mem_spell {ms : List Phrase} {c : Char} (h : c ∈ spell ms) :
    isPrintable c.toNat = true := by
  obtain ⟨m, -, hc⟩ := List.mem_flatMap.1 h
  rw [m.text_eq_chars] at hc
  exact Phrase.printable_of_mem_chars hc

theorem printable_of_mem_patterns {r : Rule Char} (hr : r ∈ rules) {x : Text}
    (hx : x ∈ r.patterns) : ∀ c ∈ x, isPrintable c.toNat = true := by
  obtain ⟨p, -, rfl⟩ := outline_of_mem_rules hr
  obtain ⟨ms, -, rfl⟩ := List.mem_map.1 (show x ∈ p.patterns.map spell from hx)
  exact fun c hc => printable_of_mem_spell hc

theorem printable_of_mem_patterns_encode {r : Rule UInt8} (hr : r ∈ rules.map Rule.encode)
    {x : Bytes} (hx : x ∈ r.patterns) : ∀ b ∈ x, isPrintable b.toNat = true := by
  obtain ⟨q, hq, rfl⟩ := List.mem_map.1 hr
  obtain ⟨t, ht, rfl⟩ := List.mem_map.1 (show x ∈ q.patterns.map Utf8.encode from hx)
  exact fun b hb => printable_of_mem_encode (printable_of_mem_patterns hq ht) hb

/-! ## Passes -/

theorem foreign_run_rules (s : Text) :
    Text.foreign (Pass.run rules s).content = Text.foreign s := by
  apply Pass.filter_run
  intro r hr x hx c hc
  simp [printable_of_mem_patterns hr hx c hc]

theorem foreign_run_rules_encode (b : Bytes) :
    Bytes.foreign (Pass.run (rules.map Rule.encode) b).content = Bytes.foreign b := by
  apply Pass.filter_run
  intro r hr x hx b hb
  simp [printable_of_mem_patterns_encode hr hx b hb]

theorem lineCount_run_rules (s : Text) :
    Text.lineCount (Pass.run rules s).content = Text.lineCount s :=
  Text.lineCount_eq_of_foreign_eq (foreign_run_rules s)

end Catalogue

end BundlePatch
