import AgentConfig.Platform.Toml
import AgentConfig.Proofs.Insertion

namespace AgentConfig.Toml

open List Text

/-- The letters that stand for themselves in comments and strings: characters that are no control
ones, and tabs. -/
def isText : Letter → Bool
  | .char c => c == '\t' || (0x20 ≤ c.toNat && c.toNat != 0x7F)
  | .half _ => false

def isKeyLetter (l : Letter) : Bool := l.is fun c => c.isAlphanum || c == '-' || c == '_'

/-- Where the next letter of a basic string stands. -/
inductive Spelling where
  | plain
  /-- Behind a backslash. -/
  | escaped
  /-- Behind some of the digits of a code. -/
  | code (width : Nat) (digits : List Char)
  deriving DecidableEq, Repr

/-- The letter that a single letter behind a backslash stands for. -/
def escapedLetter? : Letter → Option Letter
  | .char 'b' => some (.char '\x08')
  | .char 't' => some (.char '\t')
  | .char 'n' => some (.char '\n')
  | .char 'f' => some (.char '\x0c')
  | .char 'r' => some (.char '\r')
  | .char '"' => some (.char '"')
  | .char '\\' => some (.char '\\')
  | _ => none

def character? (code : Nat) : Option Letter :=
  if code < 0x110000 then (Letter.ofCode code).char?.map .char else none

/-- Reads a letter of a basic string other than the closing quote. -/
def Spelling.step (s : Spelling) (l : Letter) : Option (Spelling × Text) :=
  match s with
  | .plain =>
    if l = '\\' then some (.escaped, []) else if isText l then some (.plain, [l]) else none
  | .escaped =>
    if l = 'u' then some (.code 4 [], [])
    else if l = 'U' then some (.code 8 [], [])
    else (escapedLetter? l).map fun letter => (.plain, [letter])
  | .code width digits =>
    l.char?.bind fun c =>
      if digits.length + 1 = width then (hexNumber? (digits ++ [c])).bind fun code =>
          (character? code).map fun letter => (.plain, [letter])
      else some (.code width (digits ++ [c]), [])

/-- Where the next letter of a document stands. -/
inductive Place where
  | lineStart
  | comment
  | key (read : Text)
  /-- Between a key and the equals sign. -/
  | keyEnd (key : Text)
  /-- Behind the equals sign. -/
  | value (key : Text)
  | basic (key read : Text) (spelling : Spelling)
  /-- Behind two quotes, which are an empty string if no third one follows. -/
  | quotes (key : Text)
  /-- Behind some of the three apostrophes that open a literal string. -/
  | opening (key : Text) (apostrophes : Nat)
  /-- Right behind them, where a break is no part of the string. -/
  | opened (key : Text)
  /-- In a literal string, behind some apostrophes that may be its end. -/
  | literal (key read : Text) (apostrophes : Nat)
  | valueEnd
  deriving DecidableEq, Repr

structure Reader where
  place : Place := .lineStart
  entries : List (Text × Text) := []
  deriving DecidableEq, Repr

namespace Reader

def endValue (r : Reader) (key value : Text) : Option Reader :=
  if key ∈ r.entries.map (·.1) then none else some ⟨.valueEnd, r.entries ++ [(key, value)]⟩

def afterValue (r : Reader) (l : Letter) : Option Reader :=
  if isSpaceOrTab l then some { r with place := .valueEnd }
  else if l = '#' then some { r with place := .comment }
  else if l = '\n' then some { r with place := .lineStart }
  else none

/-- Reads a letter of a literal string. Of five apostrophes at its end, two belong to it. -/
def inLiteral (r : Reader) (key read : Text) (apostrophes : Nat) (l : Letter) : Option Reader :=
  if l = '\'' then
    if apostrophes = 5 then none
    else some { r with place := .literal key read (apostrophes + 1) }
  else if 3 ≤ apostrophes then
    (r.endValue key (read ++ replicate (apostrophes - 3) (.char '\''))).bind (·.afterValue l)
  else if isText l || l == '\n' then
    some { r with place := .literal key (read ++ replicate apostrophes (.char '\'') ++ [l]) 0 }
  else none

def step (r : Reader) (l : Letter) : Option Reader :=
  match r.place with
  | .lineStart =>
    if isSpaceOrTab l || l == '\n' then some r
    else if l = '#' then some { r with place := .comment }
    else if isKeyLetter l then some { r with place := .key [l] }
    else none
  | .comment =>
    if l = '\n' then some { r with place := .lineStart } else if isText l then some r else none
  | .key read =>
    if isKeyLetter l then some { r with place := .key (read ++ [l]) }
    else if isSpaceOrTab l then some { r with place := .keyEnd read }
    else if l = '=' then some { r with place := .value read }
    else none
  | .keyEnd key =>
    if isSpaceOrTab l then some r
    else if l = '=' then some { r with place := .value key }
    else none
  | .value key =>
    if isSpaceOrTab l then some r
    else if l = '"' then some { r with place := .basic key [] .plain }
    else if l = '\'' then some { r with place := .opening key 1 }
    else none
  | .basic key read spelling =>
    if spelling = .plain ∧ l = '"' then
      if read = [] then some { r with place := .quotes key } else r.endValue key read
    else (spelling.step l).map fun (next, letters) =>
        { r with place := .basic key (read ++ letters) next }
  | .quotes key => if l = '"' then none else (r.endValue key []).bind (·.afterValue l)
  | .opening key apostrophes =>
    if l = '\'' then some { r with
        place := if apostrophes = 2 then .opened key else .opening key (apostrophes + 1) }
    else none
  | .opened key =>
    if l = '\n' then some { r with place := .literal key [] 0 } else r.inLiteral key [] 0 l
  | .literal key read apostrophes => r.inLiteral key read apostrophes l
  | .valueEnd => r.afterValue l

def entries? (r : Reader) : Option (List (Text × Text)) :=
  match r.place with
  | .lineStart => some r.entries
  | .comment => some r.entries
  | .valueEnd => some r.entries
  | .quotes key => (r.endValue key []).map (·.entries)
  | .literal key read apostrophes =>
    if 3 ≤ apostrophes then
      (r.endValue key (read ++ replicate (apostrophes - 3) (.char '\''))).map (·.entries)
    else none
  | _ => none

end Reader

/-- The keys of a document and the texts that their strings stand for. -/
def read (text : Text) : Option (List (Text × Text)) :=
  (text.foldlM Reader.step {}).bind Reader.entries?

/-- Reading a text takes the reader from one place to another. -/
def Reader.Reads (r : Reader) (text : Text) (after : Reader) : Prop :=
  text.foldlM Reader.step r = some after

namespace Reader

variable {r next after : Reader} {text rest key before value : Text} {entries : List (Text × Text)}
  {l letter : Letter} {c : Char} {cs : List Char} {apostrophes : Nat}

theorem Reads.append (h : r.Reads text next) (hrest : next.Reads rest after) :
    r.Reads (text ++ rest) after := by
  rw [Reads, foldlM_append, h]
  exact hrest

theorem Reads.cons (h : r.step l = some next) (hrest : next.Reads rest after) :
    r.Reads (l :: rest) after := by
  rw [Reads, foldlM_cons, h]
  exact hrest

theorem reads_nil (r : Reader) : r.Reads [] r := rfl

theorem reads_comment (htext : ∀ l ∈ text, isText l = true) :
    Reads ⟨.comment, entries⟩ text ⟨.comment, entries⟩ := by
  induction text with
  | nil => exact reads_nil _
  | cons l text ih =>
    have hl := htext l mem_cons_self
    refine .cons ?_ (ih fun l hl => htext l (mem_cons_of_mem _ hl))
    have hbreak : l ≠ .char '\n' := by
      rintro rfl
      cases hl
    simp [step, hbreak, hl]

theorem reads_escapedLetter (hl : escapedLetter? l = some letter) :
    Reads ⟨.basic key before .plain, entries⟩ [.char '\\', l]
      ⟨.basic key (before ++ [letter]) .plain, entries⟩ := by
  have hcode : l ≠ .char 'u' ∧ l ≠ .char 'U' := by
    constructor <;> (rintro rfl; cases hl)
  simp [Reads, step, Spelling.step, hl, hcode]

theorem reads_code (hcode : c.toNat < 16 ^ 4) :
    Reads ⟨.basic key before .plain, entries⟩ ("\\u" ++ hexUpper 4 c.toNat)
      ⟨.basic key (before ++ [.char c]) .plain, entries⟩ := by
  have hnumber := hexNumber?_toUpper hcode
  have hlength := length_hexDigits 4 c.toNat
  rw [← length_map (f := Char.toUpper)] at hlength
  have hcharacter : character? c.toNat = some (.char c) := by
    have hofCode : Letter.ofCode c.toNat = .char c := Letter.ofCode_code (.char c)
    have hbound : c.toNat < 0x110000 := Letter.code_lt (.char c)
    rw [character?, hofCode, if_pos hbound]
    rfl
  rw [hexUpper]
  generalize (hexDigits 4 c.toNat).map Char.toUpper = digits at hnumber hlength
  obtain ⟨a, b, d, e, rfl⟩ : ∃ a b d e, digits = [a, b, d, e] := by
    match digits, hlength with
    | [a, b, d, e], _ => exact ⟨a, b, d, e, rfl⟩
  simp [Reads, step, Spelling.step, ofString, ofChars, Letter.char?, hnumber, hcharacter]

theorem isControl_iff : isControl (.char c) = true ↔ c.toNat < 0x20 ∨ c.toNat = 0x7F := by
  rw [isControl, Bool.or_eq_true, beq_iff_eq]
  exact or_congr decide_eq_true_iff Iff.rfl

theorem isText_of_not_isControl (h : ¬ isControl (.char c) = true) : isText (.char c) = true := by
  rw [isControl_iff] at h
  simp only [isText, Bool.or_eq_true, Bool.and_eq_true, decide_eq_true_eq, bne_iff_ne]
  omega

theorem reads_escape (c : Char) : Reads ⟨.basic key before .plain, entries⟩ (escape (.char c))
    ⟨.basic key (before ++ [.char c]) .plain, entries⟩ := by
  unfold escape
  split
  case h_8 hslash hquote _ _ _ _ _ =>
    split
    next hcontrol =>
      rw [isControl_iff] at hcontrol
      exact reads_code (by omega)
    next hcontrol =>
      have htext := isText_of_not_isControl hcontrol
      have hc : c ≠ '\\' ∧ c ≠ '"' := ⟨fun h => hslash (by rw [h]), fun h => hquote (by rw [h])⟩
      simp [Reads, step, Spelling.step, hc, htext]
  all_goals
    rename_i heq
    rw [heq]
    exact reads_escapedLetter rfl

theorem reads_flatMap_escape (cs : List Char) (before : Text) :
    Reads ⟨.basic key before .plain, entries⟩ ((ofChars cs).flatMap escape)
      ⟨.basic key (before ++ ofChars cs) .plain, entries⟩ := by
  induction cs generalizing before with
  | nil => simpa [ofChars] using reads_nil ⟨.basic key before .plain, entries⟩
  | cons c cs ih =>
    have hrest := ih (before ++ [.char c])
    rw [append_assoc] at hrest
    exact (reads_escape c).append hrest

theorem reads_quote (hne : value ≠ []) (hkey : key ∉ entries.map (·.1)) :
    Reads ⟨.basic key value .plain, entries⟩ "\"" ⟨.valueEnd, entries ++ [(key, value)]⟩ := by
  have hstep : step ⟨.basic key value .plain, entries⟩ '"' =
      endValue ⟨.basic key value .plain, entries⟩ key value := by
    simp [step, hne]
  refine .cons (hstep.trans ?_) (reads_nil _)
  rw [endValue, if_neg hkey]

theorem reads_basic (hne : cs ≠ []) (hkey : key ∉ entries.map (·.1)) :
    Reads ⟨.value key, entries⟩ (basic (ofChars cs))
      ⟨.valueEnd, entries ++ [(key, ofChars cs)]⟩ := by
  have hopen : Reads ⟨.value key, entries⟩ "\"" ⟨.basic key [] .plain, entries⟩ := rfl
  have hvalue : ofChars cs ≠ [] := by simpa [ofChars] using hne
  exact (hopen.append (reads_flatMap_escape cs [])).append (reads_quote hvalue hkey)

theorem infix_replicate (h : 3 ≤ apostrophes) :
    ("'''" : Text) <:+: replicate apostrophes (.char '\'') := by
  refine List.IsPrefix.isInfix ⟨replicate (apostrophes - 3) (.char '\''), ?_⟩
  have hthree : ("'''" : Text) = replicate 3 (.char '\'') := rfl
  rw [hthree, ← replicate_add, Nat.add_sub_cancel' h]

theorem exists_reads_literal (htext : ∀ l ∈ text, isText l = true ∨ l = .char '\n') (before : Text)
    (hend : ¬ ("'''" : Text) <:+: replicate apostrophes (.char '\'') ++ text)
    (key : Text) (entries : List (Text × Text)) :
    ∃ read more, more < 3 ∧
      Reads ⟨.literal key before apostrophes, entries⟩ text ⟨.literal key read more, entries⟩ ∧
      read ++ replicate more (.char '\'') =
        before ++ replicate apostrophes (.char '\'') ++ text := by
  induction text generalizing before apostrophes with
  | nil =>
    rw [append_nil] at hend
    have hfew : apostrophes < 3 := Nat.lt_of_not_le fun hmany => hend (infix_replicate hmany)
    exact ⟨before, apostrophes, hfew, reads_nil _, by rw [append_nil]⟩
  | cons l text ih =>
    have hfew : apostrophes < 3 := Nat.lt_of_not_le fun hmany =>
      hend ((infix_replicate hmany).trans (prefix_append _ _).isInfix)
    have hmore := fun l hl => htext l (mem_cons_of_mem _ hl)
    by_cases hl : l = .char '\''
    · subst hl
      have hone : replicate apostrophes (Letter.char '\'') ++ .char '\'' :: text =
          replicate (apostrophes + 1) (.char '\'') ++ text := by
        rw [replicate_succ', append_assoc, singleton_append]
      rw [hone] at hend
      obtain ⟨read, more, hless, hreads, heq⟩ := ih hmore before hend
      refine ⟨read, more, hless, .cons ?_ hreads, ?_⟩
      · simp [step, inLiteral, show apostrophes ≠ 5 by omega]
      · rw [heq, append_assoc, append_assoc, hone]
    · have hrest : ¬ ("'''" : Text) <:+: replicate 0 (.char '\'') ++ text := fun hinside =>
        hend (hinside.trans ((suffix_cons l text).isInfix.trans (suffix_append _ _).isInfix))
      obtain ⟨read, more, hless, hreads, heq⟩ :=
        ih hmore (before ++ replicate apostrophes (.char '\'') ++ [l]) hrest
      refine ⟨read, more, hless, .cons ?_ hreads, ?_⟩
      · have hallowed : (isText l || l == .char '\n') = true := by
          simpa using htext l mem_cons_self
        change inLiteral _ key before apostrophes l = _
        rw [inLiteral, if_neg hl, if_neg (by omega), if_pos hallowed]
      · rw [heq]
        simp

theorem reads_literal (htext : ∀ l ∈ text, isText l = true ∨ l = .char '\n')
    (hend : ¬ ("'''" : Text) <:+: text) (hkey : key ∉ entries.map (·.1)) :
    Reads ⟨.value key, entries⟩ ("'''\n" ++ text ++ "\n'''" ++ "\n")
      ⟨.lineStart, entries ++ [(key, text ++ "\n")]⟩ := by
  have hopen : Reads ⟨.value key, entries⟩ "'''\n" ⟨.literal key [] 0, entries⟩ := rfl
  have hend' : ¬ ("'''" : Text) <:+: replicate 0 (.char '\'') ++ text := by simpa using hend
  obtain ⟨read, more, hless, hreads, heq⟩ := exists_reads_literal htext [] hend' key entries
  have hclose : Reads ⟨.literal key read more, entries⟩ "\n'''"
      ⟨.literal key (text ++ "\n") 3, entries⟩ := by
    have hstep : step ⟨.literal key read more, entries⟩ (.char '\n') =
        some ⟨.literal key (text ++ "\n") 0, entries⟩ := by
      change inLiteral _ key read more '\n' = _
      rw [inLiteral, if_neg (by decide), if_neg (by omega), if_pos (by decide), heq]
      rfl
    exact .cons hstep rfl
  have hbreak : Reads ⟨.literal key (text ++ "\n") 3, entries⟩ "\n"
      ⟨.lineStart, entries ++ [(key, text ++ "\n")]⟩ := by
    refine .cons ?_ (reads_nil _)
    change inLiteral _ key (text ++ "\n") 3 '\n' = _
    rw [inLiteral, if_neg (by decide), if_pos (Nat.le_refl 3), endValue, if_neg hkey]
    simp [afterValue, isSpaceOrTab]
  exact ((hopen.append hreads).append hclose).append hbreak

theorem of_fitsLiteral (h : fitsLiteral (ofChars cs) = true) :
    ¬ ("'''" : Text) <:+: ofChars cs ∧ ∀ l ∈ ofChars cs, isText l = true ∨ l = .char '\n' := by
  rw [fitsLiteral, Bool.and_eq_true, Bool.not_eq_true', Bool.not_eq_true', any_eq_false] at h
  obtain ⟨hquotes, hcontrol⟩ := h
  refine ⟨fun hinside => ?_, fun l hl => ?_⟩
  · rw [includes_iff.mpr hinside] at hquotes
    cases hquotes
  obtain ⟨c, -, rfl⟩ := mem_map.mp hl
  have hletter := hcontrol _ hl
  by_cases hbreak : c = '\n'
  · exact .inr (by rw [hbreak])
  · by_cases htab : c = '\t'
    · exact .inl (by rw [htab]; rfl)
    · exact .inl (isText_of_not_isControl (by simpa [hbreak, htab] using hletter))

/-- A prompt in the form that its text allows, with the break that ends its line. A literal string
ends in a break of its own. -/
theorem exists_reads_multiline (cs : List Char) (hkey : key ∉ entries.map (·.1)) :
    ∃ ending : Text, (ending = "" ∨ ending = "\n") ∧
      Reads ⟨.value key, entries⟩ (multiline (ofChars cs) ++ "\n")
        ⟨.lineStart, entries ++ [(key, ofChars cs ++ ending)]⟩ := by
  unfold multiline
  split
  next hfits =>
    obtain ⟨hend, htext⟩ := of_fitsLiteral hfits
    exact ⟨"\n", .inr rfl, reads_literal htext hend hkey⟩
  next hfits =>
    have hne : cs ≠ [] := by
      rintro rfl
      exact hfits rfl
    refine ⟨"", .inl rfl, ?_⟩
    have hbreak : Reads ⟨.valueEnd, entries ++ [(key, ofChars cs)]⟩ "\n"
        ⟨.lineStart, entries ++ [(key, ofChars cs)]⟩ := rfl
    have hvalue : ofChars cs ++ ("" : Text) = ofChars cs := append_nil _
    rw [hvalue]
    exact (reads_basic hne hkey).append hbreak

theorem reads_marker : Reads {} ("# " ++ Marker.notice ++ "\n") {} := by
  have hnotice : ∀ l ∈ Marker.notice, isText l = true := by
    simp [Marker.notice, isText, ofString, ofChars]
  have hopen : Reads {} "# " ⟨.comment, []⟩ := rfl
  have hbreak : Reads ⟨.comment, []⟩ "\n" {} := rfl
  exact (hopen.append (reads_comment hnotice)).append hbreak

end Reader

/-- The entries of a command's document: a description if there is one, and the prompt. -/
def entriesOf (description prompt : Text) : List (Text × Text) :=
  (if description.isEmpty then [] else [(("description" : Text), description)]) ++
    [(("prompt" : Text), prompt)]

theorem exists_trim_ofChars (cs : List Char) :
    ∃ trimmed, Text.trim (ofChars cs) = ofChars trimmed := by
  simp only [Text.trim, trimEnd, dropEndWhile, ofChars, dropWhile_map, ← map_reverse]
  exact ⟨_, rfl⟩

theorem exists_reads_prompt (content : String) (entries : List (Text × Text))
    (hkey : ("prompt" : Text) ∉ entries.map (·.1)) :
    ∃ ending : Text, (ending = "" ∨ ending = "\n") ∧
      Reader.Reads ⟨.lineStart, entries⟩ ("prompt = " ++ multiline (Text.trim content) ++ "\n")
        ⟨.lineStart, entries ++ [(("prompt" : Text), Text.trim content ++ ending)]⟩ := by
  obtain ⟨trimmed, htrim⟩ := exists_trim_ofChars content.toList
  change Text.trim content = _ at htrim
  have hopen : Reader.Reads ⟨.lineStart, entries⟩ "prompt = " ⟨.value "prompt", entries⟩ := rfl
  rw [htrim, append_assoc]
  obtain ⟨ending, hending, hreads⟩ := Reader.exists_reads_multiline trimmed hkey
  exact ⟨ending, hending, hopen.append hreads⟩

theorem exists_reads_command (name : Text) (aliases : Option (List Text))
    (description content : String) :
    ∃ ending : Text, (ending = "" ∨ ending = "\n") ∧
      Reader.Reads {} (command { name, description, content, aliases })
        ⟨.lineStart, entriesOf description (Text.trim content ++ ending)⟩ := by
  unfold command entriesOf
  split
  next =>
    obtain ⟨ending, hending, hreads⟩ := exists_reads_prompt content [] (by simp)
    exact ⟨ending, hending, hreads⟩
  next hsome =>
    obtain ⟨ending, hending, hreads⟩ := exists_reads_prompt content
      [(("description" : Text), (description : Text))] (by simp; decide)
    have hopen : Reader.Reads {} "description = " ⟨.value "description", []⟩ := rfl
    have hvalue : Reader.Reads ⟨.value "description", []⟩ (basic description)
        ⟨.valueEnd, [(("description" : Text), (description : Text))]⟩ :=
      Reader.reads_basic (by simpa [ofString, ofChars] using hsome) (by simp)
    have hbreak : Reader.Reads ⟨.valueEnd, [(("description" : Text), (description : Text))]⟩ "\n"
        ⟨.lineStart, [(("description" : Text), (description : Text))]⟩ := rfl
    refine ⟨ending, hending, ?_⟩
    have hall := ((hopen.append hvalue).append hbreak).append hreads
    simpa only [append_assoc] using hall

/-- The marker does not stand behind a first line, since no document of a command starts with
`#!`. -/
theorem add_command (before : Text) (c : Command) :
    Marker.add (before ++ ".toml") (command c) = "# " ++ Marker.notice ++ "\n" ++ command c ∨
      Marker.add (before ++ ".toml") (command c) = command c := by
  have hfirst : ¬ ("#!" : Text) <+: command c := by
    rintro ⟨rest, hrest⟩
    unfold command at hrest
    split at hrest <;> cases hrest
  rcases Marker.style_toml before with hstyle | hstyle
  · rcases Marker.addAtTop_cases ("# " ++ Marker.notice) (command c) with ⟨-, htop⟩ | ⟨hnot, -⟩
    · exact .inl (by rw [Marker.add, hstyle]; exact htop)
    · exact absurd hnot hfirst
  · exact .inr (by rw [Marker.add, hstyle])

/-- The document of a command, marked as it is written, has a description exactly if the command has
one, and a prompt, and nothing else. They stand for the command's description and its trimmed text,
which may have gained a break at its end. -/
theorem read_add_command (before name : Text) (aliases : Option (List Text))
    (description content : String) :
    ∃ ending : Text, (ending = "" ∨ ending = "\n") ∧
      read (Marker.add (before ++ ".toml") (command { name, description, content, aliases })) =
        some (entriesOf description (Text.trim content ++ ending)) := by
  obtain ⟨ending, hending, hreads⟩ := exists_reads_command name aliases description content
  refine ⟨ending, hending, ?_⟩
  rcases add_command before { name, description, content, aliases } with hadd | hadd
  · rw [hadd, read, Reader.reads_marker.append hreads]
    rfl
  · rw [hadd, read, hreads]
    rfl

end AgentConfig.Toml
