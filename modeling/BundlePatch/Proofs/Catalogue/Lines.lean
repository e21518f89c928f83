import BundlePatch.Proofs.Catalogue.Printable
import BundlePatch.Proofs.Rewriting.Pieces

/-!
# Lines

No rule looks for a line feed or inserts one, so each edit of a pass stays inside one line. A pass
changes at most one line for each rule that it reports, and keeps what is not printable ASCII
(`lines_and_foreign_kept`).
-/

namespace BundlePatch.Catalogue

theorem newline_not_mem_patterns {r : Rule Char} (hr : r ∈ rules) : ∀ x ∈ r.patterns, '\n' ∉ x := by
  intro x hx hmem
  have hprintable : isPrintable '\n'.toNat = true := printable_of_mem_patterns hr hx _ hmem
  exact absurd hprintable (by decide)

/-- A pass keeps the number of lines. The lines that it changes are no more than the rules that it
reports, and the code points outside printable ASCII stay as they were, in their order. -/
theorem lines_and_foreign_kept (s : Text) :
    let p := Pass.run rules s
    let t : Text := p.content
    t.lines.length = s.lines.length ∧ (differing s.lines t.lines).card ≤ p.applied.length ∧
      t.foreign = s.foreign := by
  intro p t
  refine ⟨lineCount_run_rules s, ?_, foreign_run_rules s⟩
  exact Pass.card_differing_run_le (fun r hr => newline_not_mem_patterns hr) s

end BundlePatch.Catalogue
