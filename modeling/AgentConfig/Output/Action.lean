import AgentConfig.Platform.Generated

namespace AgentConfig

inductive ActionKind where
  | writeText
  | mergeJson
  | removeFile
  | removeKeys
  deriving DecidableEq, Repr

def ActionKind.text : ActionKind → Text
  | .writeText => "write_text"
  | .mergeJson => "merge_json"
  | .removeFile => "remove_file"
  | .removeKeys => "remove_keys"

def ActionKind.all : List ActionKind := [.writeText, .mergeJson, .removeFile, .removeKeys]

def ActionKind.ofText? (text : Text) : Option ActionKind :=
  ActionKind.all.find? fun k => k.text == text

def ActionKind.persists : ActionKind → Bool
  | .writeText => true
  | .mergeJson => true
  | _ => false

inductive ActionStatus where
  | noop
  | create
  | update
  | remove
  deriving DecidableEq, Repr

def ActionStatus.text : ActionStatus → Text
  | .noop => "noop"
  | .create => "create"
  | .update => "update"
  | .remove => "remove"

def ActionStatus.all : List ActionStatus := [.noop, .create, .update, .remove]

def ActionStatus.ofText? (text : Text) : Option ActionStatus :=
  ActionStatus.all.find? fun s => s.text == text

structure Action where
  kind : ActionKind
  /-- The path from the root, as it was given. -/
  path : Text
  status : ActionStatus
  detail : Text := ""
  payload : Option Text := none
  target : Option Text := none
  backup : Bool := false
  ownedKeys : Option (List Text) := none
  deriving DecidableEq, Repr

/-- The actions for one target, and what the user should know about them. -/
structure Plan where
  actions : List Action := []
  warnings : List Text := []
  deriving DecidableEq, Repr

def Plan.count (p : Plan) (status : ActionStatus) : Nat :=
  p.actions.countP fun a => a.status == status

def Plan.backups (p : Plan) : Nat := p.actions.countP (·.backup)

structure LedgerEntry where
  /-- The last target that wrote the path. -/
  writer : Text
  content : Option Text := none
  ownedKeys : Option (List Text) := none
  deriving DecidableEq, Repr

abbrev Ledger := List (Text × LedgerEntry)

namespace Ledger

def get? (l : Ledger) (path : Text) : Option LedgerEntry := l.lookup path

def hasPath (l : Ledger) (path : Text) : Bool := (l.get? path).isSome

/-- Notes an action that was carried out. Content and keys of an earlier one stay when it has none
of its own. -/
def record (l : Ledger) (a : Action) : Ledger :=
  let old := l.get? a.path
  (a.path,
    { writer := a.target.getD ""
      content := a.payload <|> old.bind (·.content)
      ownedKeys := a.ownedKeys <|> old.bind (·.ownedKeys) }) :: l.filter fun e => e.1 != a.path

end Ledger

structure TargetReport where
  target : Text
  result : Option Generated := none
  plan : Option Plan := none
  applied : Nat := 0
  failed : Nat := 0
  failures : List Text := []
  backups : List Text := []
  error : Option Text := none
  deriving DecidableEq, Repr

namespace TargetReport

def ok (r : TargetReport) : Bool := r.error.isNone && r.failed == 0

def planWarnings (r : TargetReport) : List Text := (r.plan.map (·.warnings)).getD []

def warnings (r : TargetReport) : List Text :=
  (r.result.map (·.warnings)).getD [] ++ r.planWarnings

def actions (r : TargetReport) : List Action := (r.plan.map (·.actions)).getD []

end TargetReport

inductive BuildState where
  | idle
  | committed
  | partialFailure
  deriving DecidableEq, Repr

def BuildState.text : BuildState → Text
  | .idle => "idle"
  | .committed => "manifest-committed"
  | .partialFailure => "partial-failure"

structure BuildReport where
  targets : List TargetReport := []
  state : BuildState := .idle
  written : List Text := []
  merged : List Text := []
  removed : List Text := []
  dryRun : Bool := false
  deriving DecidableEq, Repr

namespace BuildReport

def ok (b : BuildReport) : Bool := b.targets.all (·.ok)

def backups (b : BuildReport) : List Text := b.targets.flatMap (·.backups)

def actions (b : BuildReport) : List Action := b.targets.flatMap (·.actions)

def count (b : BuildReport) (status : ActionStatus) : Nat :=
  b.actions.countP fun a => a.status == status

def failed (b : BuildReport) : Nat := b.targets.countP fun r => !r.ok

end BuildReport

end AgentConfig
