import AgentConfig.Guidance

namespace AgentConfig.Toml

def isControl (l : Letter) : Bool := l.code < 0x20 || l.code == 0x7F

def escape (l : Letter) : Text :=
  match l with
  | .char '\\' => "\\\\"
  | .char '"' => "\\\""
  | .char '\x08' => "\\b"
  | .char '\t' => "\\t"
  | .char '\n' => "\\n"
  | .char '\x0c' => "\\f"
  | .char '\r' => "\\r"
  | l => if isControl l then "\\u" ++ Text.hexUpper 4 l.code else [l]

def basic (s : Text) : Text := "\"" ++ s.flatMap escape ++ "\""

/-- Three quotes or a bare control letter cannot stand in a literal string, which has no
escapes. -/
def fitsLiteral (s : Text) : Bool :=
  !Text.includes s "'''" && !s.any fun l => isControl l && l != .char '\n' && l != .char '\t'

/-- A literal string over several lines where the text allows one, else a basic string. -/
def multiline (s : Text) : Text := if fitsLiteral s then "'''\n" ++ s ++ "\n'''" else basic s

def command (c : Command) : Text :=
  (if c.description.isEmpty then ("" : Text)
    else "description = " ++ basic c.description ++ "\n") ++
    "prompt = " ++ multiline (Text.trim c.content) ++ "\n"

end AgentConfig.Toml
