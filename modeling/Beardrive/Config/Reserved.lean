import Beardrive.Lib.SlashPath
import Mathlib.Data.List.DropRight

/-!
# Paths that never sync

Some names are never scanned, never journaled and never materialized: the mount's own directory,
`.git`, temporary files, and the files a coding agent reads as executable configuration. All of
them are matched under the spellings a filesystem folds together.

Every name compared against is ASCII, so lowering is only needed where a rune can reach ASCII: two
letters besides the ASCII ones lower onto it.

## Main definitions

* `lower` — the lower case, against ASCII text
* `reservedDir`, `reservedName`, `agentHookConfig`, `reservedPath` — the rule
-/

namespace Beardrive

/-- The ASCII letter `unicode.ToLower` maps a rune to, or the rune itself. -/
def lowerRune (r : Rune) : Rune :=
  if 0x41 ≤ r ∧ r ≤ 0x5A then r + 0x20
  else if r = 0x130 then 0x69
  else if r = 0x212A then 0x6B
  else r

/-- The runes of `strings.ToLower (s)`, as far as a comparison with ASCII text can tell. -/
def lower (s : GoString) : List Rune := (runes s).map lowerRune

/-- `strings.TrimRight (name, ". ")`. -/
def trimRightDots (name : GoString) : GoString := name.rdropWhile fun b => b == 0x2E || b == 0x20

/-- `ReservedDirs`. -/
def reservedDirs : List GoString := [ascii ".git", ascii ".bdrive"]

/-- Whether a path segment names a reserved directory. -/
def reservedDir (name : GoString) : Bool :=
  reservedDirs.any fun reserved => equalFold (trimRightDots name) reserved

/-- Whether a bare file name never syncs. -/
def reservedName (name : GoString) : Bool :=
  lower name == runes (ascii ".ds_store") ||
    (runes (ascii ".bdrive-tmp-")).isPrefixOf (lower name)

/-- The files of an agent's configuration directory that hold commands it runs. -/
def agentHookConfigs : List (GoString × List GoString) :=
  [(ascii ".claude", [ascii "settings.json", ascii "settings.local.json"]),
    (ascii ".codex", [ascii "hooks.json", ascii "config.toml"]),
    (ascii ".gemini", [ascii "settings.json"]),
    (ascii ".hermes", [ascii "config.yaml"])]

/-- Such files that stand in no configuration directory. -/
def agentHookFiles : List GoString := [ascii ".mcp.json"]

/-- Whether a path is an agent's project-level hook configuration. -/
def agentHookConfig (p : GoString) : Bool :=
  let file := (splitDir p).2
  let dir := (splitDir (trimSuffix (splitDir p).1 [slash])).2
  agentHookFiles.any (equalFold (trimRightDots file)) ||
    agentHookConfigs.any fun entry =>
      equalFold (trimRightDots dir) entry.1 && entry.2.any (equalFold (trimRightDots file))

/-- Whether a path is one that is never carried. -/
def reservedPath (p : GoString) : Bool :=
  (segments p).any reservedDir || reservedName (base p) || agentHookConfig p

end Beardrive
