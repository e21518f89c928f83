/-!
# Texts and bytes

A text is a list of code points and the content of a file is a list of bytes.
`Text.ofPieces` spells a long literal in short pieces, `Text.ofInt` a number.
-/

namespace BundlePatch

/-- A sequence of code points. -/
abbrev Text := List Char

/-- A sequence of octets. -/
abbrev Bytes := List UInt8

/-- The text spelled by the pieces, one after the other. -/
def Text.ofPieces (pieces : List String) : Text := pieces.flatMap String.toList

/-- The text followed by a line feed. -/
def Text.line (t : Text) : Text := t ++ ['\n']

/-- Decimal digits, with a sign if negative. -/
def Text.ofInt : Int → Text
  | .ofNat n => Nat.toDigits 10 n
  | .negSucc n => '-' :: Nat.toDigits 10 (n + 1)

end BundlePatch
