import BundlePatch.Text.Basic

/-!
# Detectors

A detector finds an installed editor: first where an environment variable points, then by
looking its commands up, then at fixed application paths. `Detector.closure` spells it as
JavaScript. The parts are inserted as they are, without any quoting.
-/

namespace BundlePatch

/-- The places where an editor is looked for. `appPaths` is an expression. -/
structure Detector where
  envVar : Text
  commands : List Text
  appPaths : Text
  deriving DecidableEq, Repr

namespace Detector

/-- The call that looks one command up. -/
def lookup (command : Text) : Text := "Sp(\"".toList ++ command ++ "\")".toList

/-- The lookups of all commands, tried in order. -/
def lookups (commands : List Text) : Text :=
  "||".toList.intercalate (commands.map lookup)

/-- The `detect` entry of an editor. -/
def closure (d : Detector) : Text :=
  "detect:()=>\x7bvar i=process.env.".toList ++ d.envVar ++
    Text.ofPieces [";if(i&&i.trim()&&Ee.existsSync(i.trim()))return i.trim();", "return "] ++
    lookups d.commands ++ "||".toList ++ d.appPaths ++ "\x7d".toList

end Detector

end BundlePatch
