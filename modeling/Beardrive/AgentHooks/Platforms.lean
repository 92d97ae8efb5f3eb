import Beardrive.AgentHooks.Install

/-!
# The groups of the platforms

The shell commands that the package registers, and the three groups of each agent. Three agents
put a command into the list of a group, one makes the group itself the command.

## Main definitions

* `mergeJSONHooks`, `hermesGroups` — the groups, as each kind of platform writes them
* `Agent.platform` — what is registered for an agent

## Main results

* `Agent.groups_apart` — the markers tell the groups of every agent apart
-/

namespace Beardrive

namespace AgentHooks

open Tree (Fields)

/-- `mountGuard`. -/
def mountGuard : GoString :=
  ascii "cd \"$\x7bCLAUDE_PROJECT_DIR:-.\x7d\" 2>/dev/null || exit 0; " ++
  ascii "d=$PWD; while [ ! -f \"$d/.bdrive/config.json\" ]; do case \"$d\" in \"\"|/) d=; break;; " ++
  ascii "esac; d=$\x7bd%/*\x7d; done; " ++
  ascii "[ -n \"$d\" ] || case \"$PWD\" in *\"\n\"*) exit 0;; esac; " ++
  ascii "[ -n \"$d\" ] || grep -qF \"\\\"$PWD/\" \"$\x7bBDRIVE_HOME:-$HOME/.bdrive\x7d/mounts.json\" " ++
  ascii "2>/dev/null || exit 0; command -v bdrive >/dev/null || exit 0; "

/-- `hookCommand`. -/
def hookCommand (label : GoString) : GoString :=
  ascii "sh -c '" ++ mountGuard ++
  ascii "s=; [ -t 0 ] || s=$(head -c 8192 2>/dev/null | tr -d \\\" | sed -n \"s/.*session_id" ++
  ascii "[[:space:]]*:[[:space:]]*\\([a-zA-Z0-9_-]*\\).*/\\1/p\" | head -n 1); " ++
  ascii "if [ -n \"$s\" ]; then bdrive sync . --note \"" ++ label ++
  ascii " session $s\" >/dev/null 2>&1 || true; else bdrive sync . >/dev/null 2>&1 || true; fi'"

/-- `hookPullCommand`. -/
def hookPullCommand (label : GoString) : GoString :=
  ascii "sh -c '" ++ mountGuard ++ ascii "bdrive sync . --hook " ++ label ++ ascii " 2>/dev/null'"

/-- `readHookCommand`. -/
def readHookCommand : GoString :=
  ascii "sh -c '" ++ mountGuard ++ ascii "bdrive read-log . >/dev/null 2>&1 || true'"

/-- A number of a decoded value. -/
def numberLeaf (n : ℕ) : Tree := .leaf (some (decimal n))

/-- The groups of `mergeJSONHooks`. -/
def mergeJSONHooks (pullEvent pushEvent pushMatcher readMatcher label : GoString) (timeout : ℕ)
    (async : Bool) (pullCmd : GoString) : Groups :=
  let cmd := hookCommand label
  let hook (command : GoString) : Fields :=
    [(ascii "type", .str (ascii "command")), (commandKey, .str command),
      (ascii "timeout", numberLeaf timeout)]
  let asyncFields : Fields := if async then [(ascii "async", .leaf (some (ascii "true")))] else []
  { pullEvent, pushEvent
    pull := [(hooksKey, .list [.table (hook (if pullCmd = [] then cmd else pullCmd) ++
      [(ascii "statusMessage", .str (ascii "beardrive: pulling latest files"))])])]
    push := [(ascii "matcher", .str pushMatcher),
      (hooksKey, .list [.table (hook cmd ++ asyncFields)])]
    read := [(ascii "matcher", .str readMatcher),
      (hooksKey, .list [.table (hook readHookCommand ++ asyncFields)])] }

/-- The groups of `installHermes`. -/
def hermesGroups : Groups :=
  let hook (command : GoString) : Fields :=
    [(commandKey, .str command), (ascii "timeout", numberLeaf 30)]
  let cmd := hookCommand (ascii "hermes")
  { pullEvent := ascii "pre_llm_call", pushEvent := ascii "post_tool_call"
    pull := hook cmd
    push := (ascii "matcher", .str (ascii "write_file|patch")) :: hook cmd
    read := (ascii "matcher", .str (ascii "read_file|grep|bash")) :: hook readHookCommand }

/-- The agents. -/
inductive Agent where
  | claude
  | codex
  | gemini
  | hermes

/-- What is registered for an agent. -/
def Agent.groups : Agent → Groups
  | claude => mergeJSONHooks (ascii "UserPromptSubmit") (ascii "PostToolUse")
      (ascii "Write|Edit|MultiEdit") (ascii "Read|Grep|Bash") (ascii "claude-code") 30 true
      (hookPullCommand (ascii "claude-code"))
  | codex => mergeJSONHooks (ascii "UserPromptSubmit") (ascii "PostToolUse") (ascii "apply_patch")
      (ascii "read_file|shell") (ascii "codex") 30 false []
  | gemini => mergeJSONHooks (ascii "BeforeAgent") (ascii "AfterTool")
      (ascii "write_file|replace|edit")
      (ascii "read_file|read_many_files|search_file_content|run_shell_command")
      (ascii "gemini") 30000 false []
  | hermes => hermesGroups

theorem claude_apart : Agent.claude.groups.apart = true := by
  rw [Agent.groups, mergeJSONHooks, hookCommand, hookPullCommand, readHookCommand, mountGuard]
  repeat rw [ascii_ofList]
  decide +kernel

theorem codex_apart : Agent.codex.groups.apart = true := by
  rw [Agent.groups, mergeJSONHooks, hookCommand, readHookCommand, mountGuard]
  repeat rw [ascii_ofList]
  decide +kernel

theorem gemini_apart : Agent.gemini.groups.apart = true := by
  rw [Agent.groups, mergeJSONHooks, hookCommand, readHookCommand, mountGuard]
  repeat rw [ascii_ofList]
  decide +kernel

theorem hermes_apart : Agent.hermes.groups.apart = true := by
  rw [Agent.groups, hermesGroups, hookCommand, readHookCommand, mountGuard]
  repeat rw [ascii_ofList]
  decide +kernel

/-- The markers tell the groups of every agent apart. -/
theorem Agent.groups_apart (agent : Agent) : agent.groups.apart = true :=
  match agent with
  | claude => claude_apart
  | codex => codex_apart
  | gemini => gemini_apart
  | hermes => hermes_apart

/-- What is registered for an agent, told apart. -/
def Agent.platform (agent : Agent) : Platform := ⟨agent.groups, agent.groups_apart⟩

end AgentHooks

end Beardrive
