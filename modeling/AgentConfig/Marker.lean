import AgentConfig.Header
import AgentConfig.Json.Read
import AgentConfig.Path

namespace AgentConfig.Marker

def notice : Text := "Generated by agentrc. Do not edit; changes will be overwritten."

def jsonKey : Text := "_generated"

inductive Style where
  /-- A comment on a line of its own; in a document with a header, below the header. -/
  | comment (line : Text) (belowHeader : Bool)
  | jsonMember
  | unmarked
  deriving DecidableEq, Repr

def style (path : Text) : Style :=
  let kind := Path.kind path
  if kind = ".json" then .jsonMember
  else if ([".md", ".mdc"] : List Text).contains kind then
    .comment ("<!-- " ++ notice ++ " -->") true
  else if ([".toml", ".yaml", ".yml", ".sh", ".py"] : List Text).contains kind then
    .comment ("# " ++ notice) false
  else if ([".js", ".ts"] : List Text).contains kind then .comment ("// " ++ notice) false
  else .unmarked

def line? (path : Text) : Option Text :=
  match style path with
  | .comment line _ => some line
  | _ => none

/-- How many letters a line break takes at the start of a text. -/
def breakLength? : Text → Option Nat
  | .char '\n' :: _ => some 1
  | .char '\r' :: .char '\n' :: _ => some 2
  | _ => none

/-- How many letters three dashes take at the start of a text, with the blanks behind them. -/
def dashesLength? (text : Text) : Option Nat :=
  if Text.startsWith text "---" then some (3 + ((text.drop 3).takeWhile Text.isSpaceOrTab).length)
  else none

def endLength? (text : Text) : Option Nat := if text.isEmpty then some 0 else breakLength? text

/-- How many letters two things take, one right behind the other. -/
def both (first second : Text → Option Nat) (text : Text) : Option Nat := do
  let n ← first text
  some (n + (← second (text.drop n)))

/-- How many letters there are up to the end of the first closing line, which may end the text. -/
def lengthToClosing? : Text → Option Nat
  | [] => none
  | l :: text =>
    match both breakLength? (both dashesLength? endLength?) (l :: text) with
    | some n => some n
    | none => (lengthToClosing? text).map (· + 1)

def headerLength? : Text → Option Nat :=
  both dashesLength? (both breakLength? lengthToClosing?)

/-- The header that a marker goes below, with both its lines of dashes, and the rest. -/
def splitHeader? (content : Text) : Option (Text × Text) :=
  (headerLength? content).map fun n => content.splitAt n

def splitLine (content : Text) : Text × Text :=
  (content.takeWhile (· != .char '\n'), (content.dropWhile (· != .char '\n')).drop 1)

/-- The content with the line put before it, but after a first line that starts with `#!`. -/
def addAtTop (line content : Text) : Text :=
  match content with
  | .char '#' :: .char '!' :: _ =>
    let (first, rest) := splitLine content
    first ++ "\n" ++ line ++ "\n" ++ rest
  | _ => line ++ "\n" ++ content

/-- The content with the line put below its header, if it has one. -/
def addBelowHeader (line content : Text) : Text :=
  match splitHeader? content with
  | some (head, body) =>
    let head := if head.getLast? = some (.char '\n') then head else head ++ "\n"
    head ++ line ++ "\n" ++ body
  | none => addAtTop line content

def addLine (line : Text) (belowHeader : Bool) (content : Text) : Text :=
  if belowHeader then addBelowHeader line content else addAtTop line content

/-- The content with the marking member in front; a text that is no JSON object stays as it is. -/
def addMember (content : Text) : Text :=
  match Json.read content with
  | .ok (.obj members) =>
    Json.write (.obj ((jsonKey, .str notice) :: Json.Members.erase jsonKey members))
  | _ => content

def add (path content : Text) : Text :=
  match style path with
  | .comment line belowHeader => addLine line belowHeader content
  | .jsonMember => addMember content
  | .unmarked => content

/-- Why the content of a path can neither be marked nor searched for the marker: it is JSON of too
many levels. -/
def fault? (path content : Text) : Option Json.ReadError :=
  match style path, Json.read content with
  | .jsonMember, .error e => if e.isMalformed then none else some e
  | _, _ => none

def searchedLines : Nat := 64

def has (path content : Text) : Bool :=
  match style path with
  | .comment line _ => ((Text.lines content).take searchedLines).contains line
  | .jsonMember =>
    match Json.read content with
    | .ok (.obj members) => Json.Members.hasKey jsonKey members
    | _ => false
  | .unmarked => false

end AgentConfig.Marker
