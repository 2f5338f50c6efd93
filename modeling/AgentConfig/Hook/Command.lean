import AgentConfig.Guidance
import AgentConfig.Hook.Glob
import AgentConfig.Json.Basic

namespace AgentConfig

/-- The event of a settings document that starts a hook, and the tools it listens to. -/
structure HookTrigger where
  event : Text
  matcher : Text
  deriving DecidableEq, Repr

def HookEvent.trigger : HookEvent → HookTrigger
  | .postEdit => ⟨"PostToolUse", "Edit|Write|MultiEdit"⟩
  | .postCreate => ⟨"PostToolUse", "Write"⟩
  | .preCommit => ⟨"Notification", "Stop"⟩

namespace Hook

def filePlaceholder : Text := "\x7bfile\x7d"

def fileParameter : Text := "$1"

/-- The command to run; a script of the project's hook directory is named from the root. -/
def script (run : Text) : Text :=
  if Text.startsWith run "hooks/" then ".agentrc/" ++ run else run

def guard (pattern : Text) : Text :=
  "echo \"" ++ fileParameter ++ "\" | grep -qE \"" ++ Glob.regex pattern ++ "\" && "

/-- Runs a script with the edited file, which arrives as JSON, bound to its first parameter. -/
def withFile (inner : Text) : Text :=
  "jq -r '.tool_input.file_path' | xargs -I \x7b\x7d sh -c '" ++ inner ++ "' _ \x7b\x7d"

def command (hook : Hook) : Text :=
  let run := script hook.run
  let guarded : Text := match hook.glob with
    | some pattern => if pattern.isEmpty then "" else guard pattern
    | none => ""
  if Text.includes run filePlaceholder then
    withFile (guarded ++ Text.replaceAll run filePlaceholder fileParameter)
  else if guarded.isEmpty then run
  else withFile (guarded ++ run)

def entry (hook : Hook) : Json :=
  .obj [
    ("matcher", .str hook.event.trigger.matcher),
    ("hooks", .arr [.obj [("type", .str "command"), ("command", .str hook.command)]])]

/-- One more entry under an event: behind the entries it has or, for an event that has none yet, as
the first one of a group at the end. -/
def addEntry (event : Text) (entry : Json) : List (Text × List Json) → List (Text × List Json)
  | [] => [(event, [entry])]
  | (other, entries) :: rest =>
    if other = event then (other, entries ++ [entry]) :: rest
    else (other, entries) :: addEntry event entry rest

/-- The entries of hooks by trigger event, collected one hook after the other. -/
def grouped (hooks : List Hook) : List (Text × List Json) :=
  hooks.foldl (fun groups hook => addEntry hook.event.trigger.event hook.entry groups) []

/-- The settings of some hooks: their entries by trigger event. No hooks give no settings. -/
def settings (hooks : List Hook) : Json.Members :=
  let groups := grouped hooks
  if groups.isEmpty then []
  else [("hooks", .obj (groups.map fun (event, entries) => (event, .arr entries)))]

end Hook

end AgentConfig
