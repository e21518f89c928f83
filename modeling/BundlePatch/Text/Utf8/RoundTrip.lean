import BundlePatch.Text.Utf8

/-!
# Reading back what was written

The decoder accepts exactly what the encoder writes (`decode_eq_ok_iff`), so each
text has one spelling in bytes (`encode_inj`). One sequence at a time:
`sequence_utf8EncodeChar` reads a code point back, and `eq_append_of_sequence` says
that a sequence which is read was written by the encoder.
-/

namespace BundlePatch.Utf8

theorem toNat_ofNat {n : Nat} (h : n.isValidChar) : (Char.ofNat n).val.toNat = n := by
  rw [Char.ofNat, dif_pos h]
  rfl

theorem toNat_byte {n : Nat} (h : n < 256) : (UInt8.ofNat n).toNat = n := by simp; omega

theorem byte_eq {b : UInt8} {n : Nat} (h : n = b.toNat) : UInt8.ofNat n = b := by
  subst h; simp

/-! ## The two readers -/

theorem continuations_succ_eq_ok_iff {owed low high bits : Nat} {bs : Bytes} {r : Nat × Bytes} :
    continuations (owed + 1) low high bits bs = .ok r ↔
      ∃ b t, bs = b :: t ∧ low ≤ b.toNat ∧ b.toNat ≤ high ∧
        continuations owed 0x80 0xBF (bits * 64 + (b.toNat - 0x80)) t = .ok r := by
  cases bs with
  | nil => simp [continuations]
  | cons b t =>
    have : continuations (owed + 1) low high bits (b :: t) = .ok r ↔ low ≤ b.toNat ∧
        b.toNat ≤ high ∧
          continuations owed 0x80 0xBF (bits * 64 + (b.toNat - 0x80)) t = .ok r := by
      rw [continuations]
      split
      · next hb => split <;> simp [*]
      · next hb =>
        constructor
        · intro h; cases h
        · exact fun h => absurd ⟨h.1, h.2.1⟩ hb
    rw [this]
    simp only [List.cons.injEq]
    grind

theorem continuations_cons {owed low high bits n : Nat} {t : Bytes} {r : Nat × Bytes} (hn : n < 64)
    (hl : low ≤ n + 128) (hh : n + 128 ≤ high)
    (h : continuations owed 0x80 0xBF (bits * 64 + n) t = .ok r) :
    continuations (owed + 1) low high bits (UInt8.ofNat (n + 128) :: t) = .ok r := by
  rw [continuations_succ_eq_ok_iff]
  have e : (UInt8.ofNat (n + 128)).toNat = n + 128 := toNat_byte (by omega)
  refine ⟨_, t, rfl, ?_, ?_, ?_⟩
  · rw [e]; exact hl
  · rw [e]; exact hh
  · rw [e, Nat.add_sub_cancel]; exact h

theorem sequence_eq_ok_iff {b : UInt8} {bs rest : Bytes} {c : Char} :
    sequence b bs = .ok (c, rest) ↔ ∃ l value, lead? b = some l ∧
      continuations l.owed l.low l.high l.bits bs = .ok (value, rest) ∧ c = Char.ofNat value := by
  unfold sequence
  cases lead? b with
  | none => simp
  | some l =>
    cases e : continuations l.owed l.low l.high l.bits bs with
    | error _ => simp [e]
    | ok r =>
      obtain ⟨v, t⟩ := r
      simp only [Except.ok.injEq, Prod.mk.injEq, Option.some.injEq, exists_and_left,
        exists_eq_left', e]
      constructor
      · rintro ⟨rfl, rfl⟩; exact ⟨v, ⟨rfl, rfl⟩, rfl⟩
      · rintro ⟨_, ⟨rfl, rfl⟩, rfl⟩; exact ⟨rfl, rfl⟩

/-! ## What is written is read -/

theorem lead?_one {n : Nat} (h : n ≤ 0x7F) :
    lead? (UInt8.ofNat n) = some ⟨n, 0, 0x80, 0xBF⟩ := by
  simp only [lead?, toNat_byte (show n < 256 by omega), if_pos h]

theorem lead?_two {n : Nat} (h : 0x7F < n) (h' : n ≤ 0x7FF) :
    ∃ l, lead? (UInt8.ofNat (n / 64 % 32 + 192)) = some l ∧ l.owed = 1 ∧ l.bits = n / 64 ∧
      l.low ≤ n % 64 + 128 ∧ n % 64 + 128 ≤ l.high := by
  simp only [lead?, toNat_byte (show n / 64 % 32 + 192 < 256 by omega)]
  refine ⟨⟨n / 64, 1, 0x80, 0xBF⟩, ?_, rfl, rfl, ?_⟩
  · grind
  · dsimp only; omega

theorem lead?_three {n : Nat} (h : 0x7FF < n) (h' : n ≤ 0xFFFF) (hv : n < 0xD800 ∨ 0xDFFF < n) :
    ∃ l, lead? (UInt8.ofNat (n / 4096 % 16 + 224)) = some l ∧ l.owed = 2 ∧ l.bits = n / 4096 ∧
      l.low ≤ n / 64 % 64 + 128 ∧ n / 64 % 64 + 128 ≤ l.high := by
  simp only [lead?, toNat_byte (show n / 4096 % 16 + 224 < 256 by omega)]
  repeat' split
  all_goals first | omega | (refine ⟨_, rfl, rfl, ?_⟩; dsimp only; omega)

theorem lead?_four {n : Nat} (h : 0xFFFF < n) (h' : n < 0x110000) :
    ∃ l, lead? (UInt8.ofNat (n / 262144 % 8 + 240)) = some l ∧ l.owed = 3 ∧ l.bits = n / 262144 ∧
      l.low ≤ n / 4096 % 64 + 128 ∧ n / 4096 % 64 + 128 ≤ l.high := by
  simp only [lead?, toNat_byte (show n / 262144 % 8 + 240 < 256 by omega)]
  repeat' split
  all_goals first | omega | (refine ⟨_, rfl, rfl, ?_⟩; dsimp only; omega)

theorem sequence_utf8EncodeChar (c : Char) (rest : Bytes) :
    ∃ b bs, String.utf8EncodeChar c ++ rest = b :: bs ∧ sequence b bs = .ok (c, rest) := by
  have hv : c.val.toNat.isValidChar := c.valid
  have hc : c = Char.ofNat c.val.toNat := c.ofNat_toNat.symm
  simp only [Nat.isValidChar] at hv
  generalize hn : c.val.toNat = n at hv hc
  unfold String.utf8EncodeChar
  simp only [hn, sequence_eq_ok_iff]
  split
  · next h => exact ⟨_, _, rfl, _, n, lead?_one h, rfl, hc⟩
  split
  · obtain ⟨l, hl, owed, bits, low, high⟩ := lead?_two (n := n) (by omega) (by omega)
    refine ⟨_, _, rfl, l, n, hl, ?_, hc⟩
    rw [owed, bits]
    refine continuations_cons (by omega) low high ?_
    rw [continuations, show n / 64 * 64 + n % 64 = n by omega]
    rfl
  split
  · obtain ⟨l, hl, owed, bits, low, high⟩ :=
      lead?_three (n := n) (by omega) (by omega) (by omega)
    refine ⟨_, _, rfl, l, n, hl, ?_, hc⟩
    rw [owed, bits]
    refine continuations_cons (by omega) low high ?_
    refine continuations_cons (by omega) (by omega) (by omega) ?_
    rw [continuations, show (n / 4096 * 64 + n / 64 % 64) * 64 + n % 64 = n by omega]
    rfl
  · obtain ⟨l, hl, owed, bits, low, high⟩ := lead?_four (n := n) (by omega) (by omega)
    refine ⟨_, _, rfl, l, n, hl, ?_, hc⟩
    rw [owed, bits]
    refine continuations_cons (by omega) low high ?_
    refine continuations_cons (by omega) (by omega) (by omega) ?_
    refine continuations_cons (by omega) (by omega) (by omega) ?_
    rw [continuations,
      show ((n / 262144 * 64 + n / 4096 % 64) * 64 + n / 64 % 64) * 64 + n % 64 = n by omega]
    rfl

/-! ## What is read was written -/

/-- The bands of leading bytes, by the number of bytes that follow. -/
theorem lead?_bands {b : UInt8} {l : Lead} (h : lead? b = some l) :
    (l.owed = 0 ∧ b.toNat = l.bits ∧ l.bits ≤ 0x7F) ∨
    0x80 ≤ l.low ∧ l.high ≤ 0xBF ∧
      ((l.owed = 1 ∧ b.toNat = l.bits + 192 ∧ 2 ≤ l.bits ∧ l.bits ≤ 31) ∨
      (l.owed = 2 ∧ b.toNat = l.bits + 224 ∧ l.bits ≤ 15 ∧
        (1 ≤ l.bits ∨ 0xA0 ≤ l.low) ∧ (l.bits ≠ 13 ∨ l.high ≤ 0x9F)) ∨
      (l.owed = 3 ∧ b.toNat = l.bits + 240 ∧ l.bits ≤ 4 ∧
        (1 ≤ l.bits ∨ 0x90 ≤ l.low) ∧ (l.bits ≤ 3 ∨ l.high ≤ 0x8F))) := by
  simp only [lead?] at h
  repeat' split at h
  all_goals
    first
    | contradiction
    | obtain ⟨bits, owed, low, high⟩ := l
      simp only [Option.some.injEq, Lead.mk.injEq] at h
      simp only
      omega

theorem eq_append_of_sequence {b : UInt8} {bs rest : Bytes} {c : Char}
    (h : sequence b bs = .ok (c, rest)) : b :: bs = String.utf8EncodeChar c ++ rest := by
  obtain ⟨l, value, hl, hc, rfl⟩ := sequence_eq_ok_iff.1 h
  rcases lead?_bands hl with
      ⟨owed, hb, _⟩ | ⟨_, _, ⟨owed, hb, _⟩ | ⟨owed, hb, _⟩ | ⟨owed, hb, _⟩⟩ <;>
    rw [owed] at hc
  · cases hc
    have hv := toNat_ofNat (n := l.bits) (by simp only [Nat.isValidChar]; omega)
    simp only [String.utf8EncodeChar, hv]
    rw [if_pos (by omega), byte_eq (b := b) (by omega)]
    rfl
  · obtain ⟨b1, t, rfl, _, _, hc⟩ := continuations_succ_eq_ok_iff.1 hc
    simp only [continuations, Except.ok.injEq, Prod.mk.injEq] at hc
    obtain ⟨rfl, rfl⟩ := hc
    have hv := toNat_ofNat (n := l.bits * 64 + (b1.toNat - 128))
      (by simp only [Nat.isValidChar]; omega)
    simp only [String.utf8EncodeChar, hv]
    rw [if_neg (by omega), if_pos (by omega), byte_eq (b := b) (by omega),
      byte_eq (b := b1) (by omega)]
    rfl
  · obtain ⟨b1, t, rfl, _, _, hc⟩ := continuations_succ_eq_ok_iff.1 hc
    obtain ⟨b2, t, rfl, _, _, hc⟩ := continuations_succ_eq_ok_iff.1 hc
    simp only [continuations, Except.ok.injEq, Prod.mk.injEq] at hc
    obtain ⟨rfl, rfl⟩ := hc
    have hv := toNat_ofNat (n := (l.bits * 64 + (b1.toNat - 128)) * 64 + (b2.toNat - 128))
      (by simp only [Nat.isValidChar]; omega)
    simp only [String.utf8EncodeChar, hv]
    rw [if_neg (by omega), if_neg (by omega), if_pos (by omega), byte_eq (b := b) (by omega),
      byte_eq (b := b1) (by omega), byte_eq (b := b2) (by omega)]
    rfl
  · obtain ⟨b1, t, rfl, _, _, hc⟩ := continuations_succ_eq_ok_iff.1 hc
    obtain ⟨b2, t, rfl, _, _, hc⟩ := continuations_succ_eq_ok_iff.1 hc
    obtain ⟨b3, t, rfl, _, _, hc⟩ := continuations_succ_eq_ok_iff.1 hc
    simp only [continuations, Except.ok.injEq, Prod.mk.injEq] at hc
    obtain ⟨rfl, rfl⟩ := hc
    have hv := toNat_ofNat
      (n := ((l.bits * 64 + (b1.toNat - 128)) * 64 + (b2.toNat - 128)) * 64 + (b3.toNat - 128))
      (by simp only [Nat.isValidChar]; omega)
    simp only [String.utf8EncodeChar, hv]
    rw [if_neg (by omega), if_neg (by omega), if_neg (by omega), byte_eq (b := b) (by omega),
      byte_eq (b := b1) (by omega), byte_eq (b := b2) (by omega), byte_eq (b := b3) (by omega)]
    rfl

/-! ## Whole texts -/

theorem encode_cons (c : Char) (t : Text) : encode (c :: t) = String.utf8EncodeChar c ++ encode t :=
  rfl

theorem encode_append (s t : Text) : encode (s ++ t) = encode s ++ encode t :=
  List.flatMap_append

theorem decodeFrom_cons_ok {offset : Nat} {done : Text} {b : UInt8} {bs rest : Bytes} {c : Char}
    (h : sequence b bs = .ok (c, rest)) :
    decodeFrom offset done (b :: bs) = decodeFrom (offset + c.utf8Size) (c :: done) rest := by
  rw [decodeFrom]; split <;> simp_all

theorem decodeFrom_encode (t : Text) (offset : Nat) (done : Text) :
    decodeFrom offset done (encode t) = .ok (done.reverse ++ t) := by
  induction t generalizing offset done with
  | nil => simp [encode, decodeFrom]
  | cons c t ih =>
    obtain ⟨b, bs, hb, hs⟩ := sequence_utf8EncodeChar c (encode t)
    rw [encode_cons, hb, decodeFrom_cons_ok hs, ih]
    simp

theorem eq_of_decodeFrom {offset : Nat} {done t : Text} {bs : Bytes}
    (h : decodeFrom offset done bs = .ok t) : ∃ t', t = done.reverse ++ t' ∧ bs = encode t' := by
  fun_induction decodeFrom offset done bs with
  | case1 offset done => cases h; exact ⟨[], by simp, rfl⟩
  | case2 offset done b bs c rest hs ih =>
    obtain ⟨t', rfl, rfl⟩ := ih h
    exact ⟨c :: t', by simp, by rw [eq_append_of_sequence hs, encode_cons]⟩
  | case3 => cases h

theorem decode_encode (t : Text) : decode (encode t) = .ok t := decodeFrom_encode t 0 []

theorem decode_eq_ok_iff {bs : Bytes} {t : Text} : decode bs = .ok t ↔ bs = encode t := by
  refine ⟨fun h => ?_, fun h => h ▸ decode_encode t⟩
  obtain ⟨t', rfl, h⟩ := eq_of_decodeFrom h
  simpa using h

/-- The bytes spell a text. -/
def WellFormed (bs : Bytes) : Prop := ∃ t, bs = encode t

theorem wellFormed_iff {bs : Bytes} : WellFormed bs ↔ ∃ t, decode bs = .ok t := by
  simp only [WellFormed, decode_eq_ok_iff]

theorem encode_inj {s t : Text} (h : encode s = encode t) : s = t := by
  have := decode_encode s
  rw [h, decode_encode] at this
  exact (Except.ok.inj this).symm

end BundlePatch.Utf8
