import AgentConfig.Yaml.Print

namespace AgentConfig.Page

def header (fields : Json.Members) : Text :=
  if fields.isEmpty then "" else "---\n" ++ Yaml.print fields ++ "\n---"

def maxLevels : Nat := 327

def isWritable (fields : Json.Members) : Bool := fields.all fun f => f.2.levels ≤ maxLevels

/-- The header, if there is any, an empty line, and the body without surrounding blanks. -/
def under (header body : Text) : Text :=
  let body := Text.trim body
  if header.isEmpty then body ++ "\n"
  else if body.isEmpty then header ++ "\n"
  else header ++ "\n\n" ++ body ++ "\n"

def document (fields : Json.Members) (body : Text) : Text := under (header fields) body

def joinSections (sections : List Text) : Text :=
  let text := Text.trim (Text.intercalate "\n\n" (sections.filter (!·.isEmpty)))
  if text.isEmpty then "" else text ++ "\n"

end AgentConfig.Page
