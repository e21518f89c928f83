import BundlePatch.Proofs.Text.Alignment

/-!
# Where ill-formed bytes go wrong

`Fault.IsIn` says what the fault of ill-formed bytes is without the decoder: what comes before it
is well-formed, no sequence starts at it, and its span is as long as a sequence can follow the
bytes. The decoder finds the one fault that ill-formed bytes have (`decode_eq_error_iff`), and
the message of the fault is true of the bytes (`Fault.IsIn.message_eq`).

A reader that fails has read bytes with which a sequence may start (`Unfinished`); the byte
after them, if there is one, leads out of every sequence.
-/

namespace BundlePatch.Utf8

/-- Some sequence goes on after the bytes. -/
def Unfinished (bs : Bytes) : Prop := ∃ c b m, String.utf8EncodeChar c = bs ++ b :: m

/-- What the defect says of a span at the beginning of the bytes. -/
def Defect.Shows (d : Defect) (span bs : Bytes) : Prop :=
  match d with
  | .start => ∃ b, span = [b] ∧ ∀ c, ¬ [b] <+: String.utf8EncodeChar c
  | .continuation => span ≠ [] ∧ Unfinished span ∧
      ∃ b, span ++ [b] <+: bs ∧ ∀ c, ¬ span ++ [b] <+: String.utf8EncodeChar c
  | .truncated => span ≠ [] ∧ Unfinished span ∧ span = bs

/-- The fault is where the bytes stop being well-formed, and of the kind that it says. -/
structure Fault.IsIn (f : Fault) (bs : Bytes) : Prop where
  before : WellFormed (bs.take f.offset)
  no_sequence : ∀ c, ¬ String.utf8EncodeChar c <+: bs.drop f.offset
  span_begins : f.span <+: bs.drop f.offset
  shows : f.defect.Shows f.span (bs.drop f.offset)

/-! ## Continuation bytes -/

/-- There are bytes that make up what is owed. -/
theorem exists_continuations {low high : Nat} (hle : low ≤ high) (hlt : high < 256)
    (owed bits : Nat) :
    ∃ b ext value, continuations (owed + 1) low high bits (b :: ext) = .ok (value, []) := by
  have hb : (UInt8.ofNat low).toNat = low := toNat_byte (by omega)
  have hl : low ≤ (UInt8.ofNat low).toNat := Nat.le_of_eq hb.symm
  have hh : (UInt8.ofNat low).toNat ≤ high := by rw [hb]; exact hle
  induction owed generalizing low high bits with
  | zero => exact ⟨_, [], _, continuations_succ_eq_ok_iff.2 ⟨_, _, rfl, hl, hh, rfl⟩⟩
  | succ owed ih =>
    obtain ⟨b, ext, value, h⟩ : ∃ b ext value, continuations (owed + 1) 0x80 0xBF
        (bits * 64 + ((UInt8.ofNat low).toNat - 0x80)) (b :: ext) = .ok (value, []) :=
      ih (by decide) (by decide) _ (by decide) (by decide) (by decide)
    exact ⟨_, b :: ext, value, continuations_succ_eq_ok_iff.2 ⟨_, _, rfl, hl, hh, h⟩⟩

/-- Where the reader fails, some more bytes could have followed what it has read. -/
theorem exists_continuations_of_error {owed low high bits : Nat} {bs span : Bytes} {d : Defect}
    (hle : low ≤ high) (hlt : high < 256)
    (h : continuations owed low high bits bs = .error (span, d)) :
    ∃ b ext value, continuations owed low high bits (span ++ b :: ext) = .ok (value, []) := by
  fun_induction continuations owed low high bits bs generalizing span with
  | case1 | case3 => cases h
  | case2 | case5 =>
    cases h
    exact exists_continuations hle hlt _ _
  | case4 owed low high bits b bs hb span' d' he ih =>
    cases h
    obtain ⟨b', ext, value, hext⟩ := ih (by decide) (by decide) he
    exact ⟨b', ext, value, continuations_succ_eq_ok_iff.2 ⟨b, _, rfl, hb.1, hb.2, hext⟩⟩

/-- The reader fails at the end of the bytes, or at a byte after which nothing would help. -/
theorem continuations_error_cases {owed low high bits : Nat} {bs span : Bytes} {d : Defect}
    (h : continuations owed low high bits bs = .error (span, d)) :
    (d = .truncated ∧ span = bs) ∨
      d = .continuation ∧ ∃ b rest, bs = span ++ b :: rest ∧
        ∀ ext r, continuations owed low high bits (span ++ b :: ext) ≠ .ok r := by
  fun_induction continuations owed low high bits bs generalizing span with
  | case1 | case3 => cases h
  | case2 => cases h; exact .inl ⟨rfl, rfl⟩
  | case4 owed low high bits b bs hb span' d' he ih =>
    cases h
    rcases ih he with ⟨hd, hbs⟩ | ⟨hd, b', rest, hbs, hnone⟩
    · exact .inl ⟨hd, by rw [hbs]⟩
    · refine .inr ⟨hd, b', rest, by rw [hbs]; rfl, fun ext r hok => ?_⟩
      obtain ⟨b'', t, e, -, -, hok⟩ := continuations_succ_eq_ok_iff.1 hok
      obtain ⟨rfl, rfl⟩ := List.cons.inj e
      exact hnone ext r hok
  | case5 owed low high bits b bs hb =>
    cases h
    refine .inr ⟨rfl, b, bs, rfl, fun ext r hok => hb ?_⟩
    obtain ⟨b'', t, e, hl, hh, -⟩ := continuations_succ_eq_ok_iff.1 hok
    obtain ⟨rfl, -⟩ := List.cons.inj e
    exact ⟨hl, hh⟩

/-! ## Sequences -/

theorem lead?_range {b : UInt8} {l : Lead} (h : lead? b = some l) :
    l.low ≤ l.high ∧ l.high < 256 := by
  simp only [lead?] at h
  repeat' split at h
  all_goals
    first
    | contradiction
    | obtain rfl := Option.some.inj h
      dsimp only
      omega

/-- What a sequence begins with is read as far as it goes. -/
theorem exists_sequence_of_prefix {b : UInt8} {bs : Bytes} {c : Char}
    (h : b :: bs <+: String.utf8EncodeChar c) : ∃ ext, sequence b (bs ++ ext) = .ok (c, []) := by
  obtain ⟨ext, he⟩ := h
  obtain ⟨b', bs', hb, hread⟩ := sequence_utf8EncodeChar c []
  rw [List.append_nil, ← he, List.cons_append, List.cons.injEq] at hb
  obtain ⟨rfl, rfl⟩ := hb
  exact ⟨ext, hread⟩

theorem not_prefix_of_sequence_error {b : UInt8} {bs : Bytes} {e : Bytes × Defect}
    (h : sequence b bs = .error e) (c : Char) : ¬ String.utf8EncodeChar c <+: b :: bs := by
  rintro ⟨rest, hrest⟩
  obtain ⟨b', bs', hb, hread⟩ := sequence_utf8EncodeChar c rest
  rw [hrest, List.cons.injEq] at hb
  obtain ⟨rfl, rfl⟩ := hb
  rw [h] at hread
  cases hread

theorem not_prefix_of_lead? {b : UInt8} (h : lead? b = none) (c : Char) :
    ¬ [b] <+: String.utf8EncodeChar c := by
  intro hp
  obtain ⟨ext, hread⟩ := exists_sequence_of_prefix hp
  obtain ⟨l, value, hl, -, -⟩ := sequence_eq_ok_iff.1 hread
  rw [h] at hl
  cases hl

theorem sequence_error_cases {b : UInt8} {bs span : Bytes} {d : Defect}
    (h : sequence b bs = .error (span, d)) :
    (d = .start ∧ span = [b] ∧ lead? b = none) ∨
      ∃ l span', lead? b = some l ∧ span = b :: span' ∧
        continuations l.owed l.low l.high l.bits bs = .error (span', d) := by
  unfold sequence at h
  cases hl : lead? b with
  | none =>
    rw [hl] at h
    cases h
    exact .inl ⟨rfl, rfl, rfl⟩
  | some l =>
    rw [hl] at h
    dsimp only at h
    cases hc : continuations l.owed l.low l.high l.bits bs with
    | ok r => rw [hc] at h; cases h
    | error e =>
      obtain ⟨span', d'⟩ := e
      rw [hc] at h
      cases h
      exact .inr ⟨l, span', rfl, rfl, hc⟩

/-- What is said of the first sequence of some bytes, where it cannot be read. -/
theorem shows_of_sequence_error {b : UInt8} {bs span : Bytes} {d : Defect}
    (h : sequence b bs = .error (span, d)) : span <+: b :: bs ∧ d.Shows span (b :: bs) := by
  rcases sequence_error_cases h with ⟨rfl, rfl, hlead⟩ | ⟨l, span', hlead, rfl, hc⟩
  · exact ⟨List.prefix_append [b] bs, b, rfl, not_prefix_of_lead? hlead⟩
  obtain ⟨hle, hlt⟩ := lead?_range hlead
  have hunfinished : Unfinished (b :: span') := by
    obtain ⟨b', ext, value, hext⟩ := exists_continuations_of_error hle hlt hc
    have hread := sequence_eq_ok_iff.2 ⟨l, value, hlead, hext, rfl⟩
    refine ⟨Char.ofNat value, b', ext, ?_⟩
    rw [← List.append_nil (String.utf8EncodeChar _), ← eq_append_of_sequence hread]
    rfl
  rcases continuations_error_cases hc with ⟨rfl, rfl⟩ | ⟨rfl, b', rest, rfl, hnone⟩
  · exact ⟨List.prefix_refl _, List.cons_ne_nil _ _, hunfinished, rfl⟩
  · refine ⟨List.prefix_append (b :: span') _, List.cons_ne_nil _ _, hunfinished, b', ?_, ?_⟩
    · exact ⟨rest, by simp⟩
    · intro c hp
      rw [List.cons_append] at hp
      obtain ⟨ext, hread⟩ := exists_sequence_of_prefix hp
      obtain ⟨l', value, hlead', hok, -⟩ := sequence_eq_ok_iff.1 hread
      obtain rfl : l = l' := Option.some.inj (hlead.symm.trans hlead')
      rw [List.append_assoc] at hok
      exact hnone ext _ hok

/-! ## Whole texts -/

theorem decodeFrom_error {offset : Nat} {done : Text} {bs : Bytes} {f : Fault}
    (h : decodeFrom offset done bs = .error f) :
    ∃ t b rest, bs = encode t ++ b :: rest ∧ f.offset = offset + (encode t).length ∧
      sequence b rest = .error (f.span, f.defect) := by
  fun_induction decodeFrom offset done bs with
  | case1 => cases h
  | case2 offset done b bs c rest hread ih =>
    obtain ⟨t, b', rest', rfl, hoffset, hs⟩ := ih h
    refine ⟨c :: t, b', rest', ?_, ?_, hs⟩
    · rw [eq_append_of_sequence hread, encode_cons, List.append_assoc]
    · rw [hoffset, encode_cons, List.length_append, String.length_utf8EncodeChar, Nat.add_assoc]
  | case3 offset done b bs span d hread =>
    cases h
    exact ⟨[], b, bs, rfl, rfl, hread⟩

theorem isIn_of_decode {bs : Bytes} {f : Fault} (h : decode bs = .error f) : f.IsIn bs := by
  obtain ⟨t, b, rest, rfl, hoffset, hs⟩ := decodeFrom_error h
  rw [Nat.zero_add] at hoffset
  obtain ⟨hspan, hshows⟩ := shows_of_sequence_error hs
  have hdrop : (encode t ++ b :: rest).drop f.offset = b :: rest := by
    rw [hoffset, List.drop_left]
  refine ⟨⟨t, by rw [hoffset, List.take_left]⟩, ?_, ?_, ?_⟩
  · rw [hdrop]
    exact not_prefix_of_sequence_error hs
  · rwa [hdrop]
  · rwa [hdrop]

/-! ## One fault -/

namespace Defect.Shows

variable {d d' : Defect} {span span' bs : Bytes}

theorem ne_nil (h : d.Shows span bs) : span ≠ [] := by
  cases d with
  | start => obtain ⟨b, rfl, -⟩ := h; exact List.cons_ne_nil _ _
  | continuation | truncated => exact h.1

theorem unfinished_iff (h : d.Shows span bs) : Unfinished span ↔ d ≠ .start := by
  cases d with
  | start =>
    obtain ⟨b, rfl, hb⟩ := h
    exact iff_of_false (fun ⟨c, b', m, hc⟩ => hb c ⟨b' :: m, hc.symm⟩) (fun hd => hd rfl)
  | continuation | truncated => exact iff_of_true h.2.1 nofun

theorem eq_iff (h : d.Shows span bs) (hd : d ≠ .start) : span = bs ↔ d = .truncated := by
  cases d with
  | start => exact absurd rfl hd
  | continuation =>
    obtain ⟨-, -, b, hb, -⟩ := h
    refine iff_of_false (fun e => ?_) nofun
    have hlen := hb.length_le
    rw [e, List.length_append] at hlen
    exact Nat.not_succ_le_self _ hlen
  | truncated => exact iff_of_true h.2.2 rfl

/-- No sequence follows the bytes beyond the span. -/
theorem not_begins (h : d.Shows span bs) (hp : span <+: bs) {x : Bytes} (hx : x <+: bs)
    (hlen : span.length < x.length) (c : Char) : ¬ x <+: String.utf8EncodeChar c := by
  intro hc
  cases d with
  | start =>
    obtain ⟨b, rfl, hb⟩ := h
    exact hb c ((List.prefix_of_prefix_length_le hp hx (Nat.le_of_lt hlen)).trans hc)
  | continuation =>
    obtain ⟨-, -, b, hb, hnone⟩ := h
    have hle : (span ++ [b]).length ≤ x.length := by
      rw [List.length_append]
      exact hlen
    exact hnone c ((List.prefix_of_prefix_length_le hb hx hle).trans hc)
  | truncated =>
    obtain ⟨-, -, rfl⟩ := h
    exact absurd hx.length_le (Nat.not_le.2 hlen)

theorem length_le (h : d.Shows span bs) (h' : d'.Shows span' bs) (hp : span <+: bs)
    (hp' : span' <+: bs) : span'.length ≤ span.length := by
  rcases Nat.lt_or_ge span.length span'.length with hlt | hle
  · -- the longer one begins a sequence, for it has more than one byte
    have hd : d' ≠ .start := by
      rintro rfl
      obtain ⟨b, rfl, -⟩ := h'
      exact h.ne_nil (List.eq_nil_of_length_eq_zero (Nat.lt_one_iff.1 hlt))
    obtain ⟨c, b, m, hc⟩ := h'.unfinished_iff.2 hd
    exact absurd ⟨b :: m, hc.symm⟩ (h.not_begins hp hp' hlt c)
  · exact hle

theorem unique (h : d.Shows span bs) (h' : d'.Shows span' bs) (hp : span <+: bs)
    (hp' : span' <+: bs) : span = span' ∧ d = d' := by
  have hlen : span.length = span'.length :=
    Nat.le_antisymm (h'.length_le h hp' hp) (h.length_le h' hp hp')
  obtain rfl : span = span' :=
    (List.prefix_of_prefix_length_le hp hp' (Nat.le_of_eq hlen)).eq_of_length hlen
  have hstart : d ≠ .start ↔ d' ≠ .start := h.unfinished_iff.symm.trans h'.unfinished_iff
  have hend : d ≠ .start → (d = .truncated ↔ d' = .truncated) := fun hd =>
    (h.eq_iff hd).symm.trans (h'.eq_iff (hstart.1 hd))
  refine ⟨rfl, ?_⟩
  cases d <;> cases d' <;> simp_all

end Defect.Shows

namespace Fault.IsIn

variable {f f' : Fault} {bs : Bytes}

theorem drop_ne_nil (h : f.IsIn bs) : bs.drop f.offset ≠ [] := fun e =>
  h.shows.ne_nil (List.prefix_nil.1 (e ▸ h.span_begins))

/-- No byte from the fault on is well-formed with what comes before. -/
theorem eq_nil_of_wellFormed (h : f.IsIn bs) {x : Bytes} (hx : x <+: bs.drop f.offset)
    (hw : WellFormed (bs.take f.offset ++ x)) : x = [] := by
  obtain ⟨t, ht⟩ := h.before
  obtain ⟨t', ht'⟩ := hw
  rw [ht] at ht'
  obtain ⟨q, -, rfl⟩ := eq_append_of_encode_eq ht'.symm
  cases q with
  | nil => rfl
  | cons c q =>
    have hc : String.utf8EncodeChar c <+: encode (c :: q) := ⟨encode q, rfl⟩
    exact absurd (hc.trans hx) (h.no_sequence c)

theorem not_wellFormed (h : f.IsIn bs) : ¬ WellFormed bs := by
  intro hw
  rw [← List.take_append_drop f.offset bs] at hw
  exact h.drop_ne_nil (h.eq_nil_of_wellFormed (List.prefix_refl _) hw)

theorem offset_le (h : f.IsIn bs) (h' : f'.IsIn bs) : f'.offset ≤ f.offset := by
  rcases Nat.lt_or_ge f.offset f'.offset with hlt | hle
  · obtain ⟨n, hn⟩ := Nat.exists_eq_add_of_lt hlt
    have hw : WellFormed (bs.take f.offset ++ (bs.drop f.offset).take (n + 1)) := by
      rw [← List.take_add, ← Nat.add_assoc, ← hn]
      exact h'.before
    have hnil := h.eq_nil_of_wellFormed (List.take_prefix _ _) hw
    rw [List.take_eq_nil_iff] at hnil
    exact absurd (hnil.resolve_left (Nat.succ_ne_zero n)) h.drop_ne_nil
  · exact hle

theorem unique (h : f.IsIn bs) (h' : f'.IsIn bs) : f = f' := by
  have hoffset : f.offset = f'.offset := Nat.le_antisymm (h'.offset_le h) (h.offset_le h')
  obtain ⟨offset, span, defect⟩ := f
  obtain ⟨offset', span', defect'⟩ := f'
  obtain rfl : offset = offset' := hoffset
  obtain ⟨rfl, rfl⟩ := h.shows.unique h'.shows h.span_begins h'.span_begins
  rfl

end Fault.IsIn

/-- The decoder finds the fault that there is. -/
theorem decode_eq_error_iff {bs : Bytes} {f : Fault} : decode bs = .error f ↔ f.IsIn bs := by
  refine ⟨isIn_of_decode, fun h => ?_⟩
  cases hd : decode bs with
  | error f' => rw [(isIn_of_decode hd).unique h]
  | ok t => exact absurd (wellFormed_iff.2 ⟨t, hd⟩) h.not_wellFormed

/-! ## What the message says -/

/-- The bytes from `p` to `q`, both included. -/
def slice (bs : Bytes) (p q : Nat) : Bytes := (bs.drop p).take (q + 1 - p)

/-- How a message names the bytes from `p` to `q`. -/
inductive Names (bs : Bytes) (p q : Nat) : Text → Prop where
  | byte (b : UInt8) : q = p → slice bs p q = [b] →
      Names bs p q ("byte 0x".toList ++ Nat.toDigits 16 b.toNat ++ " in position ".toList ++
        Nat.toDigits 10 p)
  | bytes : p < q →
      Names bs p q ("bytes in position ".toList ++ Nat.toDigits 10 p ++ "-".toList ++
        Nat.toDigits 10 q)

/-- What the reason in a message says of the bytes from `p` to `q`. -/
inductive Diagnosis (bs : Bytes) (p q : Nat) : Text → Prop where
  /-- It is one byte, and no sequence starts with it. -/
  | start : q = p → (∀ c, ¬ slice bs p q <+: String.utf8EncodeChar c) →
      Diagnosis bs p q "invalid start byte".toList
  /-- A sequence could go on after them, but none with the byte that is there. -/
  | continuation : Unfinished (slice bs p q) → q + 1 < bs.length →
      (∀ c, ¬ slice bs p (q + 1) <+: String.utf8EncodeChar c) →
      Diagnosis bs p q "invalid continuation byte".toList
  /-- A sequence could go on after them, but they are the last. -/
  | truncated : Unfinished (slice bs p q) → q + 1 = bs.length →
      Diagnosis bs p q "unexpected end of data".toList

theorem slice_eq {bs x : Bytes} {p q : Nat} (hx : x <+: bs.drop p) (hq : p + x.length = q + 1) :
    slice bs p q = x := by
  have hlen : q + 1 - p = x.length := by omega
  rw [slice, hlen]
  exact (List.prefix_iff_eq_take.1 hx).symm

namespace Fault.IsIn

variable {f : Fault} {bs : Bytes}

theorem last_succ (h : f.IsIn bs) : f.offset + f.span.length = f.last + 1 := by
  have hpos : 0 < f.span.length := List.length_pos_iff.2 h.shows.ne_nil
  unfold last
  omega

theorem slice_eq_span (h : f.IsIn bs) : slice bs f.offset f.last = f.span :=
  slice_eq h.span_begins h.last_succ

theorem names (h : f.IsIn bs) : ∃ place, Names bs f.offset f.last place ∧
    f.message =
      "'utf-8' codec can't decode ".toList ++ place ++ ": ".toList ++ f.defect.reason := by
  have hlast := h.last_succ
  have hslice := h.slice_eq_span
  obtain ⟨offset, span, defect⟩ := f
  match span with
  | [] => exact absurd rfl h.shows.ne_nil
  | [b] => exact ⟨_, .byte b (Nat.succ.inj hlast.symm) hslice, rfl⟩
  | b :: b' :: rest =>
    refine ⟨_, .bytes ?_, rfl⟩
    unfold last
    dsimp only [List.length_cons]
    omega

theorem diagnosis (h : f.IsIn bs) : Diagnosis bs f.offset f.last f.defect.reason := by
  have hlast := h.last_succ
  have hslice := h.slice_eq_span
  have hpos : 0 < f.span.length := List.length_pos_iff.2 h.shows.ne_nil
  have hshows := h.shows
  cases hd : f.defect with
  | start =>
    rw [hd] at hshows
    obtain ⟨b, hspan, hb⟩ := hshows
    rw [hspan] at hlast hslice
    refine .start (Nat.succ.inj hlast.symm) ?_
    rwa [hslice]
  | continuation =>
    rw [hd] at hshows
    obtain ⟨-, hunfinished, b, hb, hnone⟩ := hshows
    have hnext : slice bs f.offset (f.last + 1) = f.span ++ [b] :=
      slice_eq hb (by rw [List.length_append, List.length_singleton]; omega)
    have hlen := hb.length_le
    rw [List.length_append, List.length_singleton, List.length_drop] at hlen
    refine .continuation ?_ (by omega) ?_
    · rwa [hslice]
    · rwa [hnext]
  | truncated =>
    rw [hd] at hshows
    obtain ⟨-, hunfinished, hspan⟩ := hshows
    have hlen := congrArg List.length hspan
    rw [List.length_drop] at hlen
    refine .truncated ?_ (by omega)
    rwa [hslice]

/-- The message names the place of the fault, and gives the reason that holds there. -/
theorem message_eq (h : f.IsIn bs) : ∃ place reason,
    f.message = "'utf-8' codec can't decode ".toList ++ place ++ ": ".toList ++ reason ∧
      Names bs f.offset f.last place ∧ Diagnosis bs f.offset f.last reason := by
  obtain ⟨place, hplace, hmessage⟩ := h.names
  exact ⟨place, f.defect.reason, hmessage, hplace, h.diagnosis⟩

end Fault.IsIn

end BundlePatch.Utf8
