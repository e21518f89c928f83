import BundlePatch.Checker

/-!
# Transcripts

What a run shows to the outside: its result, the text that it printed on each stream, and
what the checking program was started on.
-/

namespace BundlePatch

structure Transcript (α : Type) where
  result : Except Failure α
  stdout : Text
  stderr : Text
  invocation : Option Invocation

namespace Transcript

variable {α β : Type}

/-- A run that printed nothing and started nothing. -/
def silent (result : Except Failure α) : Transcript α := ⟨result, [], [], none⟩

def map (f : α → β) (t : Transcript α) : Transcript β :=
  ⟨t.result.map f, t.stdout, t.stderr, t.invocation⟩

end Transcript

end BundlePatch
