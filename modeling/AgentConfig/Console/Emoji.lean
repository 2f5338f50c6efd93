import AgentConfig.Console.EmojiNames
import AgentConfig.Text.Case

namespace AgentConfig.Emoji

/-- The number a digit stands for, letters being digits too. -/
def digitValue (l : Letter) : Nat := if l.code < 97 then l.code - 48 else l.code - 87

def expand (l : Letter) : Text :=
  match parts.find? fun part => l == .char part.1 with
  | some part => Text.ofString part.2
  | none => [l]

/-- The entries of a table, with names in full. -/
def entries (table : String) : List (Text × Text) :=
  entriesFrom ([], []) ((Text.ofString table).splitOnP Text.isBlank)
where
  entriesFrom (last : Text × Text) : List Text → List (Text × Text)
    | (shared :: entry) :: more =>
      let (rest, emoji) := entry.span fun l => l.code ≤ 0x2019 && l != .char '='
      let next : Text × Text := (last.1.take (digitValue shared) ++ rest.flatMap expand,
        if emoji.isEmpty then last.2 else emoji.dropWhile (· == '='))
      next :: entriesFrom next more
    | [] :: more => entriesFrom last more
    | [] => []

/-- The flags of countries, which are written in letters of their own. -/
def flags : List (Text × Text) :=
  (entries countries).map fun (name, letters) =>
    (name, letters.map fun l => .char (Char.ofNat (l.code + 127365)))

/-- Men and women, each with the sign that makes one of another person. -/
def sexes : List (String × String × String) :=
  [("man_", "👨", "\u2642\ufe0f"), ("woman_", "👩", "\u2640\ufe0f")]

def join (first second : Text) : Text := first ++ .char '\u200d' :: second

def people : List (Text × Text) :=
  let neither (emoji : Text) : Text := emoji.filter (· ≠ .char '\ufe0f')
  entries toned ++
    (entries roles).map (fun (name, emoji) => (name, neither emoji)) ++
    (entries activities).map (fun (name, emoji) => ("person_" ++ name, neither emoji)) ++
    sexes.flatMap fun (word, person, sign) =>
      (entries professions).map (fun (name, tool) => (word ++ name, join person tool)) ++
        (entries roles ++ entries activities).map fun (name, emoji) =>
          (word ++ name, join emoji sign)

/-- An emoji with a tone of skin: the mark stands behind its first character, in the place of one
that asks for a look. -/
def withTone (mark : Text) : Text → Text
  | first :: .char '\ufe0f' :: rest => first :: mark ++ rest
  | first :: rest => first :: mark ++ rest
  | [] => mark

def ofTonedName? (name : Text) : Option Text :=
  (entries tones).findSome? fun (tone, mark) => do
    let base ← Text.stripPrefix? tone.reverse name.reverse
    let emoji ← people.lookup base.reverse
    return withTone mark emoji

def ofName? (name : Text) : Option Text :=
  let name := Text.lower name
  (flags ++ people ++ entries others).lookup name
    <|> (Text.stripPrefix? "flag_for_" name).bind (flags.lookup ·)
    <|> ofTonedName? name

def lookMark (look : Text) : Text := if look = "text" then "\ufe0e" else "\ufe0f"

def looks : List Text := ["text", "emoji"]

structure Code where
  name : Text
  look : Option Text
  deriving DecidableEq, Repr

def Code.text (c : Code) : Text :=
  c.name ++ (match c.look with
    | some look => "-" ++ look
    | none => []) ++ ":"

def Code.shown (c : Code) : Text :=
  match ofName? c.name with
  | some emoji => emoji ++ (c.look.map lookMark).getD []
  | none => ":" ++ c.text

def code? : Text → Option Code
  | [] => none
  | l :: rest =>
    match looks.find? fun look => Text.startsWith (l :: rest) ("-" ++ look ++ ":") with
    | some look => some ⟨[], some look⟩
    | none =>
      if l = ':' then some ⟨[], none⟩
      else if Text.isBlank l then none
      else (code? rest).map fun c => { c with name := l :: c.name }

/-- The text with its codes shown; `skip` counts the letters of a code that has been shown. -/
def showFrom : (skip : Nat) → Text → Text
  | _, [] => []
  | skip + 1, _ :: text => showFrom skip text
  | 0, l :: text =>
    if l = ':' then
      match code? text with
      | some code => code.shown ++ showFrom code.text.length text
      | none => l :: showFrom 0 text
    else l :: showFrom 0 text

def showAll (text : Text) : Text := showFrom 0 text

end AgentConfig.Emoji
