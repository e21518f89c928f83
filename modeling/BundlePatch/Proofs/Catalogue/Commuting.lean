import BundlePatch.Proofs.Catalogue.Idempotence
import BundlePatch.Proofs.Rewriting.Commuting

/-!
# The order of the later rules

What one of the later rules looks for or inserts keeps apart from all that the others do
(`laterOutlines_independent`). So once the editor guards had their turn, the others may come in any
order (`later_rules_commute`): although the new detectors call the lookup, it makes no difference
whether its rule comes before theirs.
-/

namespace BundlePatch.Catalogue

theorem spelled_independent {p q : Rule Phrase} (hp : p ∈ laterOutlines) (hq : q ∈ laterOutlines)
    (hne : p ≠ q) : (spelled p).Independent (spelled q) := fun x hx y hy =>
  ⟨spelled_patterns_ne_nil hp x hx, spelled_patterns_apart hp hq hne x hx y hy⟩

theorem laterOutlines_independent : (rules.drop 2).Pairwise Rule.Independent := by
  rw [← map_spelled_laterOutlines, List.pairwise_map]
  exact laterOutlines_tracks.nodup.imp_of_mem fun hp hq hne => spelled_independent hp hq hne

/-- The rules after those for the editor guards commute: in any order they leave the same text, and
report the same names. -/
theorem later_rules_commute (c : Text) {later : List (Rule Char)}
    (h : later.Perm (rules.drop 2)) :
    let p := Pass.run (rules.take 2 ++ later) c
    p.content = (Pass.run rules c).content ∧ p.applied.Perm (Pass.run rules c).applied := by
  intro p
  have hp : p = _ := Pass.run_append (rules.take 2) later c
  have hrules : Pass.run rules c = Pass.run (rules.take 2 ++ rules.drop 2) c := by
    rw [List.take_append_drop]
  have hindependent : later.Pairwise Rule.Independent :=
    h.symm.pairwise laterOutlines_independent Rule.Independent.symm
  obtain ⟨hc, ha⟩ := Pass.run_perm h hindependent (Pass.run (rules.take 2) c).content
  rw [hp, hrules, Pass.run_append]
  exact ⟨hc, ha.append_left _⟩

/-- The other way round, on a text with an old lookup and an old detector. -/
theorem later_rules_commute_reverse :
    let later := (rules.drop 2).reverse
    let c := spell [.oldLookup, .bareVscode]
    let p := Pass.run (rules.take 2 ++ later) c
    later.Perm (rules.drop 2) ∧ p.content = (Pass.run rules c).content ∧
      p.applied.Perm (Pass.run rules c).applied ∧
      p.applied = ["vscode-detect", "resolve-command"] := by
  intro later c p
  have hperm : later.Perm (rules.drop 2) := List.reverse_perm _
  obtain ⟨hc, ha⟩ := later_rules_commute c hperm
  have happlied : p.applied = ["vscode-detect", "resolve-command"] := by
    simp only [p, later, c, rules_eq_spelledOut, spell_eq_chars]
    decide +kernel
  exact ⟨hperm, hc, ha, happlied⟩

end BundlePatch.Catalogue
