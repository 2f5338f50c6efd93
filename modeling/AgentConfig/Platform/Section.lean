import AgentConfig.Guidance

namespace AgentConfig

def Rule.plainSection (r : Rule) : Text := "### " ++ r.name ++ "\n\n" ++ r.content

def Rule.globSection (r : Rule) : Text :=
  "### " ++ r.name ++ "\n\nWhen working on files matching `" ++
    Text.intercalate ", " (r.globs.getD []) ++ "`:\n\n" ++ r.content

def Rule.describedSection (r : Rule) : Text :=
  let description := r.description.getD ""
  let note : Text := if description.isEmpty then "" else " (" ++ description ++ ")"
  "### " ++ r.name ++ note ++ "\n\n" ++ r.content

namespace Section

/-- A titled section: blocks of lines, each followed by an empty line, the last one trimmed. -/
def titled (title : Text) (blocks : List (List Text)) : Text :=
  let lines : List Text := ["## " ++ title, ""] ++ blocks.flatMap (· ++ ([""] : List Text))
  Text.trimEnd (Text.intercalate "\n" lines)

def paragraph (text : Text) : List Text := if text.isEmpty then [] else [text, ""]

def hookBlock (h : Hook) : List Text :=
  let pattern := h.glob.getD ""
  let files : Text := if pattern.isEmpty then "" else " on files matching `" ++ pattern ++ "`"
  let note : List Text := if h.description.isEmpty then ["Run: `" ++ h.run ++ "`"]
    else if h.run.isEmpty then [h.description]
    else [h.description, "", "Command: `" ++ h.run ++ "`"]
  ["### " ++ h.event.text ++ files, ""] ++ note

def hooks (hs : List Hook) : Text := titled "Hooks" (hs.map hookBlock)

def commandBlock (c : Command) : List Text :=
  let aliases := c.aliases.getD []
  let note : Text :=
    if aliases.isEmpty then "" else " (aliases: " ++ Text.intercalate ", " aliases ++ ")"
  ["### " ++ c.name ++ note, ""] ++ paragraph c.description ++ [c.content]

def commands (cs : List Command) : Text := titled "Workflows" (cs.map commandBlock)

def backtick : Letter := '\x60'

/-- The length of the longest run of backticks, `run` being that of the run just read. -/
def longestRun (run : Nat) : Text → Nat
  | [] => run
  | l :: rest => if l = backtick then longestRun (run + 1) rest else max run (longestRun 0 rest)

/-- The fence around a content: the shortest run of at least three backticks that is not in it. -/
def fence (content : Text) : Text :=
  List.replicate (max 3 (longestRun 0 content + 1)) backtick

def fileBlock (path content : Text) : List Text :=
  let inside := Text.dropEndWhile (· == .char '\n') content
  ["", "#### " ++ path, "", fence content, inside, fence content]

end Section

def Skill.sortedFiles (s : Skill) : List (Text × Text) :=
  s.files.mergeSort fun a b => Text.le a.1 b.1

namespace Section

def skillBlock (s : Skill) : List Text :=
  ["### " ++ s.name, ""] ++ paragraph s.description ++ [s.content] ++
    s.sortedFiles.flatMap fun (path, content) => fileBlock path content

def skills (ss : List Skill) : Text := titled "Skills" (ss.map skillBlock)

def agentDetails (a : Agent) : Text :=
  let model := a.model.getD ""
  let tools := a.tools.getD []
  Text.intercalate "; "
    ((if model.isEmpty then [] else ["Model: `" ++ model ++ "`"]) ++
      (if tools.isEmpty then [] else ["Tools: " ++ Text.intercalate ", " tools]))

def agentBlock (a : Agent) : List Text :=
  ["### " ++ a.name, ""] ++ paragraph a.description ++ paragraph (agentDetails a) ++ [a.content]

def agents (as : List Agent) : Text := titled "Agents" (as.map agentBlock)

end Section

end AgentConfig
