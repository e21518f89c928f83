import BundlePatch.Text.Basic

/-!
# Line endings

`Text.unifyNewlines` turns CR LF and a lone CR into LF, after which no CR is left
(`not_mem_unifyNewlines`). `Text.lines` are the pieces between line feeds, one more than there
are line feeds (`lineCount_eq_count`).
-/

namespace BundlePatch.Text

def unifyNewlines : Text → Text
  | [] => []
  | '\r' :: '\n' :: t => '\n' :: unifyNewlines t
  | '\r' :: t => '\n' :: unifyNewlines t
  | c :: t => c :: unifyNewlines t

/-- The pieces between line feeds. A text that ends with a line feed has an empty last line. -/
def lines (t : Text) : List Text := t.splitOn '\n'

def lineCount (t : Text) : Nat := t.lines.length

theorem lineCount_cons (c : Char) (t : Text) :
    lineCount (c :: t) = lineCount t + if c = '\n' then 1 else 0 := by
  unfold lineCount lines
  rw [List.splitOn_cons_eq_if_modifyHead]
  by_cases hc : c = '\n'
  · simp only [hc, beq_self_eq_true, if_true, List.length_cons]
  · rw [if_neg (by simpa using hc), if_neg hc, List.length_modifyHead]
    rfl

theorem lineCount_eq_count (t : Text) : t.lineCount = t.count '\n' + 1 := by
  induction t with
  | nil => rfl
  | cons c t ih =>
    rw [lineCount_cons, ih, List.count_cons]
    simp only [beq_iff_eq]
    omega

theorem not_mem_unifyNewlines (t : Text) : '\r' ∉ unifyNewlines t := by
  fun_induction unifyNewlines t with
  | case1 => simp
  | case2 t ih => simpa using ih
  | case3 t _ ih => simpa using ih
  | case4 c t _ hc ih =>
    simpa [ih] using fun h => hc h.symm

example : unifyNewlines ['a', '\r', '\r', '\n', 'b'] = ['a', '\n', '\n', 'b'] := by decide

end BundlePatch.Text
