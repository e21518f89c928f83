import BundlePatch.Text.Utf8.RoundTrip

/-!
# Encoded texts inside encoded texts

The bytes of a text stand in the bytes of another one exactly where the text itself stands in
the other (`exists_of_encode_eq`), so the one is a part of the other before encoding as
after it (`encode_infix_iff`). This is because only the first byte of a sequence looks like one
(`isUTF8FirstByte_iff`), and because no sequence is the beginning of another
(`utf8EncodeChar_append_inj`).
-/

namespace BundlePatch.Utf8

/-! ## One sequence -/

theorem utf8EncodeChar_append_inj {c c' : Char} {u v : Bytes}
    (h : String.utf8EncodeChar c ++ u = String.utf8EncodeChar c' ++ v) : c = c' ∧ u = v := by
  obtain ⟨b, bs, hb, hread⟩ := sequence_utf8EncodeChar c u
  obtain ⟨b', bs', hb', hread'⟩ := sequence_utf8EncodeChar c' v
  rw [hb, hb'] at h
  obtain ⟨rfl, rfl⟩ := List.cons.inj h
  rw [hread] at hread'
  exact Prod.mk.inj (Except.ok.inj hread')

theorem isUTF8FirstByte_iff {c : Char} {u m : Bytes} {b : UInt8}
    (h : String.utf8EncodeChar c = u ++ b :: m) : b.IsUTF8FirstByte ↔ u = [] := by
  have hlen : u.length < (String.utf8EncodeChar c).length := by
    rw [h]
    simp
  have hb : (String.utf8EncodeChar c)[u.length] = b := by simp [h]
  rw [← hb, UInt8.isUTF8FirstByte_getElem_utf8EncodeChar, List.length_eq_zero_iff]

/-! ## Whole texts -/

theorem encode_eq_nil_iff {t : Text} : encode t = [] ↔ t = [] := by
  cases t with
  | nil => exact iff_of_true rfl rfl
  | cons c t => simp [encode_cons, String.utf8EncodeChar_ne_nil]

theorem isUTF8FirstByte_of_encode {t : Text} {b : UInt8} {bs : Bytes} (h : encode t = b :: bs) :
    b.IsUTF8FirstByte := by
  cases t with
  | nil => cases h
  | cons c t =>
    obtain ⟨b', m, hc⟩ := List.exists_cons_of_ne_nil (@String.utf8EncodeChar_ne_nil c)
    rw [encode_cons, hc] at h
    obtain ⟨rfl, -⟩ := List.cons.inj h
    exact (isUTF8FirstByte_iff (u := []) hc).2 rfl

theorem eq_append_of_encode_eq {s k : Text} {v : Bytes} (h : encode s = encode k ++ v) :
    ∃ q, s = k ++ q ∧ v = encode q := by
  induction k generalizing s with
  | nil => exact ⟨s, rfl, h.symm⟩
  | cons c k ih =>
    rw [encode_cons, List.append_assoc] at h
    cases s with
    | nil => exact absurd (List.append_eq_nil_iff.1 h.symm).1 String.utf8EncodeChar_ne_nil
    | cons c' s =>
      obtain ⟨rfl, hs⟩ := utf8EncodeChar_append_inj h
      obtain ⟨q, rfl, hq⟩ := ih hs
      exact ⟨q, rfl, hq⟩

/-- The bytes of `k` are not found across the borders of sequences. -/
theorem exists_of_encode_eq {s k : Text} {u v : Bytes} (hk : k ≠ [])
    (h : encode s = u ++ (encode k ++ v)) :
    ∃ p q, s = p ++ k ++ q ∧ u = encode p ∧ v = encode q := by
  induction s generalizing u with
  | nil =>
    have hnil : encode k = [] := (List.append_eq_nil_iff.1 (List.append_eq_nil_iff.1 h.symm).2).1
    exact absurd (encode_eq_nil_iff.1 hnil) hk
  | cons c s ih =>
    by_cases hu : u = []
    · subst hu
      obtain ⟨q, hs, hv⟩ := eq_append_of_encode_eq h
      exact ⟨[], q, hs, rfl, hv⟩
    rw [encode_cons] at h
    rcases List.append_eq_append_iff.1 h with ⟨m, rfl, hm⟩ | ⟨m, hc, hm⟩
    · obtain ⟨p, q, rfl, rfl, rfl⟩ := ih hm
      exact ⟨c :: p, q, rfl, rfl, rfl⟩
    · obtain ⟨b, bs, hb⟩ := List.exists_cons_of_ne_nil (mt encode_eq_nil_iff.1 hk)
      cases m with
      | nil =>
        obtain ⟨q, rfl, rfl⟩ := eq_append_of_encode_eq hm.symm
        have hu : u = encode [c] := by simpa [encode] using hc.symm
        exact ⟨[c], q, rfl, hu, rfl⟩
      | cons b' m =>
        -- the first byte of `k` would lie inside a sequence
        rw [hb] at hm
        obtain ⟨rfl, -⟩ := List.cons.inj hm
        exact absurd ((isUTF8FirstByte_iff hc).1 (isUTF8FirstByte_of_encode hb)) hu

theorem encode_infix_iff {k s : Text} : encode k <:+: encode s ↔ k <:+: s := by
  constructor
  · rintro ⟨u, v, h⟩
    by_cases hk : k = []
    · exact hk ▸ List.nil_infix
    · rw [List.append_assoc] at h
      obtain ⟨p, q, rfl, -, -⟩ := exists_of_encode_eq hk h.symm
      exact ⟨p, q, rfl⟩
  · rintro ⟨p, q, rfl⟩
    exact ⟨encode p, encode q, by rw [encode_append, encode_append]⟩

/-- Of two beginnings of a text, the one with fewer bytes has fewer code points. -/
theorem length_lt_of_length_encode_lt {s p b : Text} (hp : p <+: s) (hb : b <+: s)
    (h : (encode p).length < (encode b).length) : p.length < b.length := by
  rcases Nat.lt_or_ge p.length b.length with hlt | hle
  · exact hlt
  · obtain ⟨m, rfl⟩ := List.prefix_of_prefix_length_le hb hp hle
    rw [encode_append, List.length_append] at h
    omega

end BundlePatch.Utf8
