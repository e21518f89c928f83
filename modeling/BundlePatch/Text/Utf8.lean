import BundlePatch.Text.Basic

/-!
# UTF-8

`encode` writes a text as bytes, one `String.utf8EncodeChar` per code point, and
`decode` reads it back. Ill-formed bytes give a `Fault`: the offset of the first
bad sequence, its bytes and what is wrong with it. That the decoder accepts exactly
what the encoder writes is shown in `BundlePatch.Text.Utf8.RoundTrip`.
-/

namespace BundlePatch.Utf8

/-- The bytes of a text. -/
def encode (t : Text) : Bytes := t.flatMap String.utf8EncodeChar

/-- What is wrong with a bad sequence. -/
inductive Defect where
  /-- No sequence starts with its byte. -/
  | start
  /-- The byte after it cannot stand there. -/
  | continuation
  /-- The data ends before the sequence does. -/
  | truncated
  deriving DecidableEq, Repr

/-- The first bad sequence of ill-formed bytes: where it starts, and the bytes of it that were
read before the defect showed. -/
structure Fault where
  offset : Nat
  span : Bytes
  defect : Defect
  deriving DecidableEq, Repr

/-- What the first byte of a sequence says: the bits it carries, how many bytes must follow, and
the bounds of the first of these. -/
structure Lead where
  bits : Nat
  owed : Nat
  low : Nat
  high : Nat

/-- Reads a first byte. The bounds keep out the longer spellings of a code point, the surrogates and
all that lies above U+10FFFF. -/
def lead? (b : UInt8) : Option Lead :=
  let n := b.toNat
  if n ≤ 0x7F then some ⟨n, 0, 0x80, 0xBF⟩
  else if n ≤ 0xC1 then none
  else if n ≤ 0xDF then some ⟨n - 0xC0, 1, 0x80, 0xBF⟩
  else if n = 0xE0 then some ⟨0, 2, 0xA0, 0xBF⟩
  else if n = 0xED then some ⟨0xD, 2, 0x80, 0x9F⟩
  else if n ≤ 0xEF then some ⟨n - 0xE0, 2, 0x80, 0xBF⟩
  else if n = 0xF0 then some ⟨0, 3, 0x90, 0xBF⟩
  else if n ≤ 0xF3 then some ⟨n - 0xF0, 3, 0x80, 0xBF⟩
  else if n = 0xF4 then some ⟨4, 3, 0x80, 0x8F⟩
  else none

/-- Reads `owed` continuation bytes, the first between `low` and `high`. Gives the scalar value and
the bytes after the sequence, or else the continuation bytes that were fine and the defect. -/
def continuations : (owed low high bits : Nat) → Bytes → Except (Bytes × Defect) (Nat × Bytes)
  | 0, _, _, bits, bs => .ok (bits, bs)
  | _ + 1, _, _, _, [] => .error ([], .truncated)
  | owed + 1, low, high, bits, b :: bs =>
    if low ≤ b.toNat ∧ b.toNat ≤ high then
      match continuations owed 0x80 0xBF (bits * 64 + (b.toNat - 0x80)) bs with
      | .ok r => .ok r
      | .error (span, defect) => .error (b :: span, defect)
    else .error ([], .continuation)

/-- Reads the sequence that starts with `b`. -/
def sequence (b : UInt8) (bs : Bytes) : Except (Bytes × Defect) (Char × Bytes) :=
  match lead? b with
  | none => .error ([b], .start)
  | some l =>
    match continuations l.owed l.low l.high l.bits bs with
    | .ok (value, rest) => .ok (Char.ofNat value, rest)
    | .error (span, defect) => .error (b :: span, defect)

theorem length_le_of_continuations {owed low high bits value : Nat} {bs rest : Bytes}
    (h : continuations owed low high bits bs = .ok (value, rest)) : rest.length ≤ bs.length := by
  induction owed generalizing low high bits bs with
  | zero => simp only [continuations] at h; cases h; exact Nat.le_refl _
  | succ owed ih =>
    cases bs with
    | nil => simp only [continuations] at h; cases h
    | cons b bs =>
      simp only [continuations] at h
      split at h
      · split at h
        · next e => cases h; exact Nat.le_succ_of_le (ih e)
        · cases h
      · cases h

theorem length_le_of_sequence {b : UInt8} {bs rest : Bytes} {c : Char}
    (h : sequence b bs = .ok (c, rest)) : rest.length ≤ bs.length := by
  simp only [sequence] at h
  split at h
  · cases h
  · split at h
    · next e => cases h; exact length_le_of_continuations e
    · cases h

/-- `offset` is the position of the next byte and `done` holds the code points before it, the
latest first. -/
def decodeFrom (offset : Nat) (done : Text) : Bytes → Except Fault Text
  | [] => .ok done.reverse
  | b :: bs =>
    match _ : sequence b bs with
    | .ok (c, rest) => decodeFrom (offset + c.utf8Size) (c :: done) rest
    | .error (span, defect) => .error ⟨offset, span, defect⟩
termination_by bs => bs.length
decreasing_by
  have := length_le_of_sequence ‹sequence b bs = _›
  simp only [List.length_cons]
  omega

/-- The text that the bytes spell. -/
def decode (bs : Bytes) : Except Fault Text := decodeFrom 0 [] bs

/-! ## Messages -/

def Defect.reason : Defect → Text
  | .start => "invalid start byte".toList
  | .continuation => "invalid continuation byte".toList
  | .truncated => "unexpected end of data".toList

/-- The position of the last byte of the span. -/
def Fault.last (f : Fault) : Nat := f.offset + f.span.length - 1

/-- A span of one byte is named by its value, a longer one by its first and last positions. -/
def Fault.message (f : Fault) : Text :=
  let place :=
    match f.span with
    | [b] => "byte 0x".toList ++ Nat.toDigits 16 b.toNat ++ " in position ".toList ++
        Nat.toDigits 10 f.offset
    | _ => "bytes in position ".toList ++ Nat.toDigits 10 f.offset ++ "-".toList ++
        Nat.toDigits 10 f.last
  "'utf-8' codec can't decode ".toList ++ place ++ ": ".toList ++ f.defect.reason

end BundlePatch.Utf8
