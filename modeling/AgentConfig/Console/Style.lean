import AgentConfig.Text.Case

namespace AgentConfig.Style

def words (text : Text) : List Text :=
  (text.splitBy fun a b => Text.isBlank a == Text.isBlank b).filter fun run => !run.any Text.isBlank

/-- The colours, each with what may follow its name: the number of a shade, or nothing. -/
def colours : String :=
  "aquamarine:1:3 black: blue::1:3 blue_violet: bright_black: bright_blue: bright_cyan:
    bright_green: bright_magenta: bright_red: bright_white: bright_yellow: cadet_blue:
    chartreuse:1:2:3:4 cornflower_blue: cornsilk:1 cyan::1:2:3 dark_blue: dark_cyan:
    dark_goldenrod: dark_green: dark_khaki: dark_magenta: dark_olive_green:1:2:3 dark_orange::3
    dark_red: dark_sea_green::1:2:3:4 dark_slate_gray:1:2:3 dark_turquoise: dark_violet:
    deep_pink:1:2:3:4 deep_sky_blue:1:2:3:4 dodger_blue:1:2:3 gold:1:3
    gray:0:3:7:11:15:19:23:27:30:35:37:39:42:46:50:53:54:58:62:63:66:69:70:74:78:82:84:85:89:93:100
    green::1:3:4 green_yellow:
    grey:0:3:7:11:15:19:23:27:30:35:37:39:42:46:50:53:54:58:62:63:66:69:70:74:78:82:84:85:89:93:100
    honeydew:2 hot_pink::2:3 indian_red::1 khaki:1:3 light_coral: light_cyan:1:3
    light_goldenrod:1:2:3 light_green: light_pink:1:3:4 light_salmon:1:3 light_sea_green:
    light_sky_blue:1:3 light_slate_blue: light_slate_gray: light_slate_grey: light_steel_blue::1:3
    light_yellow:3 magenta::1:2:3 medium_orchid::1:3 medium_purple::1:2:3:4 medium_spring_green:
    medium_turquoise: medium_violet_red: misty_rose:1:3 navajo_white:1:3 navy_blue: orange:1:3:4
    orange_red:1 orchid::1:2 pale_green:1:3 pale_turquoise:1:4 pale_violet_red:1 pink:1:3
    plum:1:2:3:4 purple::3:4 red::1:3 rosy_brown: royal_blue:1 salmon:1 sandy_brown:
    sea_green:1:2:3 sky_blue:1:2:3 slate_blue:1:3 spring_green:1:2:3:4 steel_blue::1:3 tan:
    thistle:1:3 turquoise:2:4 violet: wheat:1:4 white: yellow::1:2:3:4"

def isColourName (text : Text) : Bool :=
  (words colours).any fun entry =>
    match Text.splitOn ':' entry with
    | name :: shades => shades.any fun shade => text == name ++ shade
    | [] => false

def attributes : List Text :=
  (["bold", "dim", "italic", "underline", "blink", "blink2", "reverse", "conceal", "strike",
    "underline2", "frame", "encircle", "overline"] : List String).map Text.ofString

def shortNames : List (Text × Text) :=
  ([("b", "bold"), ("d", "dim"), ("i", "italic"), ("u", "underline"), ("r", "reverse"),
    ("c", "conceal"), ("s", "strike"), ("uu", "underline2"), ("o", "overline")] :
    List (String × String)).map fun (short, long) => (Text.ofString short, Text.ofString long)

def attribute? (word : Text) : Option Text :=
  if attributes.contains word then some word else shortNames.lookup word

def argument? (word text : Text) : Option Text := do
  let rest ← Text.stripPrefix? word text
  if rest.getLast? = some (.char ')') then some rest.dropLast else none

def number? (text : Text) : Option Nat := do
  let digits ← (Text.trim text).mapM Text.decimalValue?
  if digits.isEmpty then none else some (digits.foldl (fun n d => 10 * n + d) 0)

def isHexDigit (l : Letter) : Bool := l.is fun c => (Text.hexValue? c).isSome

/-- Whether a text is a colour by its name, by six hexadecimal digits or by its number. -/
def isColour (text : Text) : Bool :=
  text = "default" || isColourName text ||
    (match text with
    | .char '#' :: digits => digits.length == 6 && digits.all isHexDigit
    | _ => false) ||
    (argument? "color(" text).any fun digits =>
      digits.length ≤ 3 && digits.all (Letter.is Char.isDigit) && (number? digits).any (· ≤ 255)

def primaries? (text : Text) : Option (List Text) := do
  let parts := Text.splitOn ',' (← argument? "rgb(" text)
  if parts.length == 3 && parts.all fun part => part.all fun l => (Text.decimalValue? l).isSome then
    some parts
  else none

inductive NameFault where
  | unknown
  /-- One of red, green and blue has no number. -/
  | missingNumber
  deriving DecidableEq, Repr

def checkColour (text : Text) : Except NameFault Unit :=
  match primaries? text with
  | some parts =>
    match parts.mapM number? with
    | none => .error .missingNumber
    | some numbers => if numbers.all (· ≤ 255) then .ok () else .error .unknown
  | none => if isColour text then .ok () else .error .unknown

end AgentConfig.Style

namespace AgentConfig

structure Style where
  /-- The attributes that are set, and whether they are on. -/
  set : List (Text × Bool) := []
  colour : Option Text := none
  background : Option Text := none
  link : Option Text := none
  deriving DecidableEq, Repr

namespace Style

def setAttribute (s : Style) (name : Text) (on : Bool) : Style :=
  { s with set := (name, on) :: s.set.filter fun a => a.1 != name }

def ofWords (s : Style) : List Text → Except NameFault Style
  | [] => .ok s
  | given :: rest =>
    let word := Text.lower given
    if word = "on" then
      match rest with
      | colour :: rest => do
        checkColour (Text.lower colour)
        ofWords { s with background := some (Text.lower colour) } rest
      | [] => .error .unknown
    else if word = "not" then
      match rest with
      | name :: rest =>
        match attribute? name with
        | some name => ofWords (s.setAttribute name false) rest
        | none => .error .unknown
      | [] => .error .unknown
    else if word = "link" then
      match rest with
      | link :: rest => ofWords { s with link := some link } rest
      | [] => .error .unknown
    else
      match attribute? word with
      | some name => ofWords (s.setAttribute name true) rest
      | none => do
        checkColour word
        ofWords { s with colour := some word } rest

def text (s : Style) : Text :=
  let set := attributes.filterMap fun name =>
    (s.set.lookup name).map fun on => if on then name else "not " ++ name
  let parts := set ++ s.colour.toList ++ (s.background.map (Text.ofString "on " ++ ·)).toList ++
    (s.link.map (Text.ofString "link " ++ ·)).toList
  if parts.isEmpty then "none" else Text.intercalate " " parts

def ofName (name : Text) : Except NameFault Style :=
  if Text.trim name = "none" then .ok {} else ofWords {} (words name)

/-- The normal form of a name. A colour that lacks a number has none. -/
def normalName? (name : Text) : Option Text :=
  match ofName name with
  | .ok style => some style.text
  | .error .unknown => some (Text.lower (Text.trim name))
  | .error .missingNumber => none

end Style

end AgentConfig
