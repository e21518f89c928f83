import BundlePatch.Proofs.Rewriting.Edits
import BundlePatch.Proofs.Text.Alignment

/-!
# Passes over bytes

A rule on texts can be read as a rule on bytes, with each of its texts encoded (`Rule.encode`).
First occurrences are then at corresponding places (`Occurrence.first?_encode`), so a pass
over the bytes of a text gives the bytes of the pass over the text, and reports the same
rules (`Pass.run_encode`).
-/

namespace BundlePatch

/-! ## First occurrences -/

namespace Occurrence

def encode (o : Occurrence Char) : Occurrence UInt8 := ⟨Utf8.encode o.before, Utf8.encode o.after⟩

theorem encode_replace (o : Occurrence Char) (r : Text) :
    o.encode.replace (Utf8.encode r) = Utf8.encode (o.replace r) := by
  simp only [encode, replace, Utf8.encode_append]

theorem IsFirst.encode {k s : Text} {o : Occurrence Char} (h : IsFirst k s o) :
    IsFirst (Utf8.encode k) (Utf8.encode s) o.encode where
  split := by
    rw [h.split, Utf8.encode_append, Utf8.encode_append]
    rfl
  least := by
    intro n hn hp
    by_cases hk : k = []
    · -- the empty text stands at the start, so there is nothing before it
      have hb : o.before ≠ [] := by
        intro e
        rw [Occurrence.encode, e] at hn
        exact Nat.not_lt_zero n hn
      exact h.least 0 (List.length_pos_iff.2 hb) (hk ▸ List.nil_prefix)
    · obtain ⟨v, hv⟩ := hp
      have hs : Utf8.encode s = (Utf8.encode s).take n ++ (Utf8.encode k ++ v) := by
        rw [hv, List.take_append_drop]
      obtain ⟨p, q, e, hu, -⟩ := Utf8.exists_of_encode_eq hk hs
      have hlen : (Utf8.encode p).length < (Utf8.encode o.before).length := by
        rw [← hu]
        exact Nat.lt_of_le_of_lt (List.length_take_le _ _) hn
      have hp : p <+: s := ⟨k ++ q, by rw [e, List.append_assoc]⟩
      have hb : o.before <+: s := ⟨k ++ o.after, by rw [h.split, List.append_assoc]⟩
      refine h.least p.length (Utf8.length_lt_of_length_encode_lt hp hb hlen) ?_
      rw [e, List.append_assoc, List.drop_left]
      exact List.prefix_append k q

theorem first?_encode (k s : Text) :
    first? (Utf8.encode k) (Utf8.encode s) = (first? k s).map Occurrence.encode := by
  cases e : first? k s with
  | none =>
    rw [first?_eq_none_iff] at e
    exact first?_eq_none_iff.2 (mt Utf8.encode_infix_iff.1 e)
  | some o => exact first?_eq_some_iff.2 (first?_eq_some_iff.1 e).encode

end Occurrence

/-! ## Rules and passes -/

namespace Rule

/-- The rule that does with bytes what the rule does with the texts that they spell. -/
def encode (r : Rule Char) : Rule UInt8 where
  name := r.name
  candidates := r.candidates.map Utf8.encode
  replacement := Utf8.encode r.replacement

theorem site?_encode (r : Rule Char) (s : Text) :
    r.encode.site? (Utf8.encode s) = (r.site? s).map Occurrence.encode := by
  simp only [site?, encode, List.findSome?_map, List.map_findSome?]
  congr 1
  funext k
  exact Occurrence.first?_encode k s

theorem fire?_encode (r : Rule Char) (s : Text) :
    r.encode.fire? (Utf8.encode s) = (r.fire? s).map Utf8.encode := by
  rw [fire?, site?_encode, fire?, Option.map_map, Option.map_map]
  congr 1
  funext o
  exact o.encode_replace r.replacement

end Rule

namespace Pass

theorem run_encode (rs : List (Rule Char)) (s : Text) :
    run (rs.map Rule.encode) (Utf8.encode s) =
      ⟨Utf8.encode (run rs s).content, (run rs s).applied⟩ := by
  induction rs generalizing s with
  | nil => rfl
  | cons r rs ih =>
    rw [List.map_cons]
    have hb : r.encode.fire? (Utf8.encode s) = (r.fire? s).map Utf8.encode := r.fire?_encode s
    cases h : r.fire? s with
    | none =>
      rw [h] at hb
      rw [run_cons_none hb, run_cons_none h, ih]
    | some t =>
      rw [h] at hb
      rw [run_cons_some hb, run_cons_some h, ih]
      rfl

theorem through_encode (calls : List (List (Rule Char))) (s : Text) :
    through (calls.map (List.map Rule.encode)) (Utf8.encode s) =
      Utf8.encode (through calls s) := by
  induction calls generalizing s with
  | nil => rfl
  | cons rs calls ih => rw [List.map_cons, through, run_encode, ih, through]

end Pass

end BundlePatch
