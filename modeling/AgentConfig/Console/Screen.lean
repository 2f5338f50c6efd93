import AgentConfig.Console.Layout
import AgentConfig.Console.Markup
import AgentConfig.Output.Action
import AgentConfig.Platform.Registry
import AgentConfig.Source

namespace AgentConfig

inductive Block where
  | text (body : Text)
  | note (title body : Text)
  | table (title : Text) (style : Layout.TableStyle) (columns : List Layout.Column)
      (rows : List (List Text)) (below : Option Text)
  deriving DecidableEq, Repr

namespace Block

def width : Nat := 2000

def innerWidth : Nat := width - 4

def titleLine (title : Text) : Except Markup.Fault Text := do
  let shown ← Markup.shown title
  let line := Layout.expandTabs (Text.replaceAll shown "\n" " ")
  return Cells.crop innerWidth (" " ++ line ++ " ")

def lines : Block → Except Markup.Fault (List Text)
  | .text body => do return Layout.wrap true width (← Markup.shown body)
  | .note title body => do
    let title ← titleLine title
    return title :: Layout.wrap true innerWidth (← Markup.shown body)
  | .table title style columns rows below => do
    let title ← titleLine title
    let rows ← rows.mapM fun row => row.mapM Markup.shown
    return title :: Layout.tableLines style columns innerWidth rows ++ below.toList

end Block

abbrev Screen := List Block

namespace Screen

def lines (s : Screen) : Except Markup.Fault (List Text) := (s.mapM Block.lines).map List.flatten

def bullets (items : List Text) : Text :=
  Text.intercalate "\n" (items.map (Text.ofString "- " ++ ·))

def listing (title : Text) (items : List Text) : Screen :=
  if items.isEmpty then [] else [.note title (Markup.escape (bullets items))]

def orWord (word text : Text) : Text := if text.isEmpty then word else text

def loading (home root : Text) : Screen :=
  [.text ("[blue]Loading .agentrc/ from " ++ Markup.escape (Path.compact home root) ++ "[/]")]

def noTargets : Screen :=
  [.note "targets" "No targets specified. Add targets to config.yaml or use --targets."]

def item (style sign text : Text) : Text :=
  "[" ++ style ++ "]" ++ sign ++ " " ++ Markup.escape text ++ "[/]"

def target (r : TargetReport) : Screen :=
  match r.result with
  | none => [.note r.target (Markup.escape (orWord "no result" (r.error.getD "")))]
  | some result =>
    let lines := result.native.map (item "green" "✓") ++ result.degraded.map (item "yellow" "⚠") ++
      result.warnings.map (item "yellow" "⚠")
    [.note r.target (orWord "nothing generated" (Text.intercalate "\n" lines))]

def planWarnings (b : BuildReport) : Screen :=
  listing "writer" (b.targets.flatMap fun r => r.planWarnings.map fun w => r.target ++ ": " ++ w)

def statusChips (b : BuildReport) : Text :=
  let chips := [ActionStatus.create, .noop, .remove, .update].filterMap fun status =>
    if b.count status = 0 then none else some (status.text ++ "=" ++ Text.ofNat (b.count status))
  orWord "none" (Text.intercalate "  " chips)

def dryRun (b : BuildReport) : Screen :=
  let targets := Text.intercalate ", " (b.targets.map (·.target))
  b.targets.flatMap target ++
    [.table "dry run" .close [{}, {}]
      [["Mode", "dry-run"], ["Targets", orWord "none" targets],
        ["Files", Text.ofNat b.actions.length], ["Statuses", statusChips b]] none] ++
    (if b.actions.isEmpty then []
    else
      [.table "files that would be written" .framed
        [{ fixed := some 16 }, { fixed := some 10 }, { most := some 58 }, {}]
        (["Target", "Status", "Path", "Reason"] :: b.actions.map fun a =>
          [a.target.getD "", a.status.text, Markup.escape a.path, Markup.escape a.detail]) none]) ++
    planWarnings b

def stats (b : BuildReport) : List (Text × Nat) :=
  [("targets", b.targets.length), ("create", b.count .create), ("update", b.count .update),
    ("noop", b.count .noop), ("remove", b.count .remove), ("backups", b.backups.length),
    ("failed", b.failed)]

def failures (b : BuildReport) : List Text :=
  b.targets.flatMap fun r =>
    let error := r.error.getD ""
    (if error.isEmpty then [] else [r.target ++ ": " ++ error]) ++
      r.failures.map fun f => r.target ++ ": " ++ f

def backups (b : BuildReport) : Screen :=
  if b.backups.isEmpty then []
  else
    [.note "backups"
      ("Backed up " ++ Text.ofNat b.backups.length ++ " existing files to .agentrc/.backup/\n" ++
        bullets (b.backups.map Markup.escape))]

def build (b : BuildReport) : Screen :=
  b.targets.flatMap target ++
    [.table "build" .spaced [{}, {}] ((stats b).map fun (name, n) => [name, Text.ofNat n])
      (some b.state.text)] ++
    planWarnings b ++ backups b ++ listing "failures" (failures b)

def inspect (r : TargetReport) : Screen :=
  match r.result with
  | none => target r
  | some result =>
    let features (support : Text) (names : List Text) : List (List Text) :=
      names.map fun name => [support, Markup.escape name]
    [.table (r.target ++ " features") .framed [{ fixed := some 10 }, { folds := true }]
      (["Support", "Feature"] :: (features "native" result.native ++
        features "degraded" result.degraded)) none,
      .table (r.target ++ " files") .framed [{ folds := true }, { fixed := some 8 }]
        (["File", "Lines"] :: result.files.map fun f =>
          [Markup.escape f.path, Text.ofNat (Text.lines f.content).length]) none] ++
    listing "warnings" result.warnings

def clean : Option (List Text) → Screen
  | none => [.note "clean" "No manifest found. Nothing to clean."]
  | some [] => [.note "clean" "No generated files found to remove."]
  | some removed =>
    [.note "clean"
      ("Removed " ++ Text.ofNat removed.length ++ " generated files:\n" ++
        Markup.escape (bullets removed))]

def validation (s : Source) : Screen :=
  let counts : List (Nat × Text) := [(s.rules.length, "rules"), (s.commands.length, "commands"),
    (s.skills.length, "skills"), (s.agents.length, "agents"), (s.config.hooks.length, "hooks")]
  let summary := Text.intercalate ", " (counts.map fun (n, name) => Text.ofNat n ++ " " ++ name)
  [.note "validate"
    ("[green]✓ .agentrc/ is valid[/]\n" ++ summary ++ "\ntargets: " ++
      Markup.escape (orWord "none" (Text.intercalate ", " s.config.targets)))]

def targets (r : Registry) : Screen :=
  [.table "targets" .framed [{ fixed := some 18 }, { folds := true }]
    (["Target", "Managed directories"] :: r.platforms.map fun p =>
      [p.name, Markup.escape (orWord "-" (Text.intercalate ", " p.managedDirs))]) none]

end Screen

end AgentConfig
