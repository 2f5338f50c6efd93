import AgentConfig.Console.Emoji
import AgentConfig.Console.Handler
import AgentConfig.Console.Style

namespace AgentConfig.Markup

def isTagStart (l : Letter) : Bool :=
  l.is fun c => ('a' ≤ c && c ≤ 'z') || c == '#' || c == '/' || c == '@'

def tag? : Text → Option Text
  | .char '[' :: l :: rest =>
    if isTagStart l then
      let inside := rest.takeWhile fun l => l != .char '[' && l != .char ']'
      if rest[inside.length]? = some (.char ']') then some (l :: inside) else none
    else none
  | _ => none

def isBackslash (l : Letter) : Bool := l == .char '\\'

/-- The backslashes before the tag at the start of a text, and what the tag holds. -/
def markedTag? (text : Text) : Option (Text × Text) :=
  (tag? (text.dropWhile isBackslash)).map (text.takeWhile isBackslash, ·)

/-- The text with backslashes before its tags; `skip` counts the letters of one already written. -/
def escapeFrom : (skip : Nat) → Text → Text
  | _, [] => []
  | skip + 1, l :: text => l :: escapeFrom skip text
  | 0, l :: text =>
    match markedTag? (l :: text) with
    | some (backslashes, inside) =>
      backslashes ++ "\\" ++ l :: escapeFrom (backslashes.length + inside.length + 1) text
    | none => l :: escapeFrom 0 text

/-- A text as markup that shows it. A single backslash at the end is doubled, since a tag may
follow. -/
def escape (text : Text) : Text :=
  let escaped := escapeFrom 0 text
  if Text.endsWith escaped "\\" && !Text.endsWith escaped "\\\\" then escaped ++ "\\" else escaped

inductive Piece where
  | text (content : Text)
  | opening (name : Text) (parameters : Option Text)
  /-- A closing tag; an empty name closes the last style. -/
  | closing (name : Text)
  deriving DecidableEq, Repr

/-- The piece a tag stands for. What follows an equals sign is no part of its name. -/
def Piece.ofTag (inside : Text) : Piece :=
  let parameters := (inside.dropWhile (· != .char '=')).tail?
  match inside.takeWhile (· != .char '=') with
  | .char '/' :: name => .closing (Text.trim name)
  | name => .opening name parameters

def Piece.ofMarkedTag (backslashes inside : Text) : List Piece :=
  [.text (backslashes.take (backslashes.length / 2)),
    if backslashes.length % 2 = 1 then .text ("[" ++ inside ++ "]") else .ofTag inside]

/-- The pieces of a markup. `plain` holds the letters since the last tag, last one first, and `skip`
counts the letters of a tag already met. -/
def piecesFrom : (skip : Nat) → (plain : Text) → Text → List Piece
  | _, plain, [] => [.text plain.reverse]
  | skip + 1, plain, _ :: text => piecesFrom skip plain text
  | 0, plain, l :: text =>
    match markedTag? (l :: text) with
    | some (backslashes, inside) =>
      .text plain.reverse :: Piece.ofMarkedTag backslashes inside ++
        piecesFrom (backslashes.length + inside.length + 1) [] text
    | none => piecesFrom 0 (l :: plain) text

inductive Fault where
  | notOpen
  | badHandler
  | missingNumber
  deriving DecidableEq, Repr

structure OpenStyle where
  name : Text
  parameters : Option Text := none
  deriving DecidableEq, Repr

def normalName (name : Text) : Except Fault Text :=
  match Style.normalName? name with
  | some name => .ok name
  | none => .error .missingNumber

/-- The style a tag closes, and those that stay open; the last one opened comes first. -/
def close (name : Text) (styles : List OpenStyle) : Except Fault (OpenStyle × List OpenStyle) := do
  if name.isEmpty then
    match styles with
    | [] => throw .notOpen
    | style :: rest => return (style, rest)
  else
    let name ← normalName name
    match styles.find? fun s => s.name == name with
    | some style => return (style, styles.eraseP fun s => s.name == name)
    | none => throw .notOpen

/-- A handler is looked at when its tag is closed. -/
def checkHandler (s : OpenStyle) : Except Fault Unit :=
  if s.name.head? = some (.char '@') && !Handler.isSound (s.parameters.getD []) then
    .error .badHandler
  else .ok ()

def withoutControls (text : Text) : Text :=
  text.filter fun l => !([7, 8, 11, 12, 13] : List Nat).contains l.code

/-- What a piece of text shows: a backslash before a bracket is dropped, and emoji replace their
names. -/
def shownText (content : Text) : Text :=
  withoutControls (Emoji.showAll (Text.replaceAll content "\\[" "["))

/-- What pieces show, `styles` being those that are open. A tag must close an open style. -/
def showPieces (styles : List OpenStyle) : List Piece → Except Fault Text
  | [] => .ok []
  | .text content :: rest => do return shownText content ++ (← showPieces styles rest)
  | .opening name parameters :: rest => do
    showPieces (⟨← normalName name, parameters⟩ :: styles) rest
  | .closing name :: rest => do
    let (closed, styles) ← close name styles
    checkHandler closed
    showPieces styles rest

/-- Whether a colour lacks a number in the style that a tag opens, parameters included. -/
def lacksNumber : Piece → Bool
  | .opening name (some parameters) =>
    match Style.normalName? name with
    | some name => (Style.normalName? (name ++ " " ++ parameters)).isNone
    | none => true
  | _ => false

def shown (markup : Text) : Except Fault Text := do
  let pieces := piecesFrom 0 [] markup
  let text ← showPieces [] pieces
  if pieces.any lacksNumber then throw .missingNumber
  return text

end AgentConfig.Markup
