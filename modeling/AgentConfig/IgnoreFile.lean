import AgentConfig.Failure

namespace AgentConfig.IgnoreFile

def blockStart : Text := "# >>> agentrc managed (do not edit) >>>"

def blockEnd : Text := "# <<< agentrc managed <<<"

def block (entries : List Text) : Text :=
  Text.intercalate "\n" ([blockStart] ++ Text.sort entries.eraseDups ++ [blockEnd])

/-- The texts before and after the block. A start without an end is no block. -/
def splitBlock? (content : Text) : Option (Text × Text) := do
  let (before, rest) ← Text.splitFirst? blockStart content
  let (_, after) ← Text.splitFirst? blockEnd rest
  some (before, after)

/-- The content with the block of some entries: in the place of the old one, else at the end. -/
def withBlock (entries : List Text) (content : Text) : Text :=
  match splitBlock? content with
  | some (before, after) => before ++ block entries ++ after
  | none =>
    if content.isEmpty then block entries ++ "\n"
    else
      let gap : Text := if content.getLast? = some (.char '\n') then "\n" else "\n\n"
      content ++ gap ++ block entries ++ "\n"

/-- The content without its block and the blanks around it, if it has one. -/
def withoutBlock? (content : Text) : Option Text := do
  let (before, after) ← splitBlock? content
  let rest := Text.trimEnd (Text.trimEnd before ++ after)
  some (if rest.isEmpty then [] else rest ++ "\n")

def location (root : List Text) : List Text := Path.child root ".gitignore"

def content? (t : FileTree) (root : List Text) : Except Failure (Option Text) := do
  let path := location root
  if ← Failure.atPath path (t.exists? path) then
    let bytes ← Failure.atPath path (t.readFile path)
    return some (← (Text.readText bytes).mapError .undecodable)
  else return none

def write (t : FileTree) (root : List Text) (content : Text) : Except Halt FileTree :=
  Halt.atPath (location root) (t.writeText (location root) content)

def remove (t : FileTree) (root : List Text) : Except Halt (Bool × FileTree) := do
  match (← Failure.orHalt t (content? t root)).bind withoutBlock? with
  | some content => return (true, ← write t root content)
  | none => return (false, t)

/-- Gives the block new entries, and tells whether the file changed. No entries remove the block. -/
def update (t : FileTree) (root : List Text) (entries : List Text) :
    Except Halt (Bool × FileTree) := do
  if entries.isEmpty then remove t root
  else
    let content := (← Failure.orHalt t (content? t root)).getD ""
    let updated := withBlock entries content
    if updated = content then return (false, t)
    else return (true, ← write t root updated)

end AgentConfig.IgnoreFile
