import BundlePatch.Detector
import BundlePatch.Rule

/-!
# The rules for the main bundle

Six rules make a main bundle that was written for macOS work on Windows too. Two remove a
guard that refuses external editors, one removes the guard of the editor list, one replaces
the command lookup `Sp`, and two replace the detectors of VS Code and VS Code Insiders.
Braces inside literals are written `\x7b` and `\x7d`.
-/

namespace BundlePatch.Catalogue

/-! ## Guards -/

def macGuard : Text := .ofPieces
  ["if(!Yr)throw new Error(\"Opening external editors is only supported",
   " on macOS\");"]

def windowsGuard : Text := .ofPieces
  ["if(process.platform===\"win32\")throw new Error(\"Opening external",
   " editors is not supported on Windows yet\");"]

def editorList : Text := "async function oN()\x7b".toList

def editorListGuard : Text := "if(!Yr)return[];".toList

/-! ## Command lookup -/

/-- The opening of the lookup function. -/
def lookupHead : Text := "function Sp(t)\x7b".toList

/-- What follows the opening, and the guard if there is one, in both shipped variants. -/
def oldLookupBody : Text := .ofPieces
  ["try\x7bconst e=Dn.spawnSync(\"which\",[t],",
   "\x7bencoding:\"utf8\",timeout:1e3\x7d),n=e.stdout?.trim();",
   "if(e.status===0&&n&&Ee.existsSync(n))return n\x7d",
   "catch(e)\x7bli().debug(\"Failed to locate command in PATH\",",
   "\x7bsafe:\x7bcommand:t\x7d,sensitive:\x7berror:e\x7d\x7d)\x7d",
   "return null\x7d"]

def lookupGuard : Text := "if(!Yr)return null;".toList

def oldLookup : Text := lookupHead ++ oldLookupBody

def oldLookupGuarded : Text := lookupHead ++ lookupGuard ++ oldLookupBody

/-- Asks `where` on Windows and `which` elsewhere, and takes the first line of the answer. -/
def newLookup : Text := .ofPieces
  ["function Sp(t)\x7b",
   "var cmds=process.platform===\"win32\"?[\"where\"]:[\"which\"];",
   "for(var ci=0;ci<cmds.length;ci++)\x7b",
   "try\x7b",
   "var e=Dn.spawnSync(cmds[ci],[t],\x7bencoding:\"utf8\",timeout:1e3\x7d),",
   "n=e.stdout&&e.stdout.split(/\\r?\\n/).find(Boolean);",
   "n=n&&n.trim();",
   "if(e.status===0&&n&&Ee.existsSync(n))return n",
   "\x7dcatch(e)\x7bli().debug(\"Failed to locate command in PATH\",",
   "\x7bsafe:\x7bcommand:t\x7d,sensitive:\x7berror:e\x7d\x7d)\x7d",
   "\x7d",
   "return null\x7d"]

/-! ## Detectors -/

def vscodeAppPaths : Text := .ofPieces
  ["sn([\"/Applications/Visual Studio Code.app",
   "/Contents/Resources/app/bin/code\",",
   "\"/Applications/Code.app/Contents/Resources/app/bin/code\"])"]

def vscodeInsidersAppPaths : Text := .ofPieces
  ["sn([\"/Applications/Visual Studio Code - Insiders.app",
   "/Contents/Resources/app/bin/code\",",
   "\"/Applications/Code - Insiders.app",
   "/Contents/Resources/app/bin/code\"])"]

/-- The old detector of an editor with a lookup of each command before the application paths. -/
def oldDetector (commands : List Text) (appPaths : Text) : Text :=
  "detect:()=>".toList ++ commands.flatMap (fun c => Detector.lookup c ++ "||".toList) ++ appPaths

def vscode : Detector where
  envVar := "CODEX_VSCODE_PATH".toList
  commands := ["code.cmd".toList, "code".toList, "codium.cmd".toList, "codium".toList]
  appPaths := vscodeAppPaths

def vscodeInsiders : Detector where
  envVar := "CODEX_VSCODE_INSIDERS_PATH".toList
  commands := ["code-insiders.cmd".toList, "code-insiders".toList, "codium-insiders.cmd".toList,
    "codium-insiders".toList]
  appPaths := vscodeInsidersAppPaths

/-! ## Rules -/

def macEditorGuard : Rule Char where
  name := "macos-editor-guard"
  candidates := [macGuard]
  replacement := []

def windowsEditorGuard : Rule Char where
  name := "windows-editor-guard"
  candidates := [windowsGuard]
  replacement := []

def unguardEditorList : Rule Char where
  name := "editor-list-guard"
  candidates := [editorList ++ editorListGuard]
  replacement := editorList

def resolveCommand : Rule Char where
  name := "resolve-command"
  candidates := [oldLookup, oldLookupGuarded]
  replacement := newLookup

def detectVscode : Rule Char where
  name := "vscode-detect"
  candidates := [oldDetector ["code".toList, "codium".toList] vscodeAppPaths,
    oldDetector [] vscodeAppPaths]
  replacement := vscode.closure

def detectVscodeInsiders : Rule Char where
  name := "vscode-insiders-detect"
  candidates :=
    [oldDetector ["code-insiders".toList, "codium-insiders".toList] vscodeInsidersAppPaths,
      oldDetector [] vscodeInsidersAppPaths]
  replacement := vscodeInsiders.closure

/-- The rules in the order in which a pass tries them. -/
def rules : List (Rule Char) :=
  [macEditorGuard, windowsEditorGuard, unguardEditorList, resolveCommand, detectVscode,
    detectVscodeInsiders]

/-- For each name in order, the rules of that name. -/
def named (names : List String) : List (Rule Char) :=
  names.flatMap fun n => rules.filter fun r => r.name == n

end BundlePatch.Catalogue
