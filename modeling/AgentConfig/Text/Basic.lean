namespace AgentConfig

inductive Letter where
  | char (c : Char)
  /-- The surrogate `0xD800 + place`, which is no character. -/
  | half (place : Fin 0x800)
  deriving DecidableEq, Repr, Inhabited

namespace Letter

def code : Letter → Nat
  | .char c => c.toNat
  | .half place => 0xD800 + place

def ofCode (n : Nat) : Letter :=
  if h : 0xD800 ≤ n ∧ n < 0xE000 then .half ⟨n - 0xD800, by omega⟩ else .char (Char.ofNat n)

def is (p : Char → Bool) : Letter → Bool
  | .char c => p c
  | .half _ => false

def char? : Letter → Option Char
  | .char c => some c
  | .half _ => none

/-- How many bytes it takes in a name; a half stands for one byte there. -/
def utf8Size : Letter → Nat
  | .char c => c.utf8Size
  | .half _ => 1

instance : Coe Char Letter := ⟨.char⟩

end Letter

abbrev Text := List Letter

namespace Text

def ofChars (cs : List Char) : Text := cs.map .char

def ofString (s : String) : Text := ofChars s.toList

instance : Coe String Text := ⟨ofString⟩

def ofNat (n : Nat) : Text := ofString (Nat.repr n)

def ofInt (n : Int) : Text := ofString (toString n)

def chars? (t : Text) : Option (List Char) := t.mapM Letter.char?

def string? (t : Text) : Option String := t.chars?.map String.ofList

def utf8Size (t : Text) : Nat := (t.map Letter.utf8Size).foldl (· + ·) 0

def intercalate (separator : Text) (ts : List Text) : Text := List.intercalate separator ts

/-- The pieces of a text between the separators; one more than there are separators. -/
def splitOn (separator : Char) (t : Text) : List Text := List.splitOn (.char separator) t

def le : Text → Text → Bool
  | [], _ => true
  | _ :: _, [] => false
  | a :: as, b :: bs => if a = b then le as bs else a.code ≤ b.code

/-- Texts in code point order; equal texts keep their order. -/
def sort (ts : List Text) : List Text := ts.mergeSort le

def hexDigits : (width n : Nat) → List Char
  | 0, _ => []
  | width + 1, n => hexDigits width (n / 16) ++ [Nat.digitChar (n % 16)]

def hex (width n : Nat) : Text := ofChars (hexDigits width n)

def hexUpper (width n : Nat) : Text := ofChars ((hexDigits width n).map Char.toUpper)

/-- Decimal with at least `width` letters, padded with zeros after the sign. -/
def padded (width : Nat) (n : Int) : Text :=
  let digits := ofString (Nat.repr n.natAbs)
  if n < 0 then .char '-' :: digits.leftpad (width - 1) '0' else digits.leftpad width '0'

def hexValue? (c : Char) : Option Nat :=
  if '0' ≤ c ∧ c ≤ '9' then some (c.toNat - 48)
  else if 'a' ≤ c ∧ c ≤ 'f' then some (c.toNat - 87)
  else if 'A' ≤ c ∧ c ≤ 'F' then some (c.toNat - 55)
  else none

def hexNumber? (cs : List Char) : Option Nat :=
  cs.foldlM (fun n c => (hexValue? c).map (16 * n + ·)) 0

def tableWords (table : String) : List (List Char) :=
  (table.toList.splitOnP Char.isWhitespace).filter (!·.isEmpty)

def code (digits : List Char) : Nat := (hexNumber? digits).getD 0

def codes (table : String) : List Nat := (tableWords table).map code

/-- The ranges of codes in a table. Each entry tells how far a range starts after the end of the one
before, and behind a dash how many codes follow its first. -/
def ranges (table : String) : List (Nat × Nat) := rangesFrom 0 (tableWords table)
where
  rangesFrom (last : Nat) : List (List Char) → List (Nat × Nat)
    | [] => []
    | entry :: more =>
      let gap := entry.takeWhile (· ≠ '-')
      let first := last + code gap
      let last := first + code (entry.drop (gap.length + 1))
      (first, last) :: rangesFrom last more

/-- Whether `n` lies in one of the ranges, which are in increasing order. -/
def inRanges (n : Nat) : List (Nat × Nat) → Bool
  | [] => false
  | (low, high) :: ranges => low ≤ n && (n ≤ high || inRanges n ranges)

/-- The zeros of all scripts, by the Unicode 14 character database; the digits one to nine follow
each of them. -/
def zeros : List Nat :=
  ranges
    "30 630 90 D0 1A6 80 80 80 80 80 80 80 80 80 6A 80 50 120 50 750 30 136 8A B0 10 C0 60 90 10
      89D0 2B0 30 D0 20 60 1A0 5320 590 890 336 8A 46 9A 120 160 80 180 70 70 1B0 70 300 100 50
      4CC0 60 90 6C7E A A A A 94A 1B0 660 12A0" |>.map (·.1)

def decimalValue? (l : Letter) : Option Nat :=
  (zeros.find? fun start => start ≤ l.code && l.code < start + 10).map (l.code - ·)

def isBlank (l : Letter) : Bool :=
  let n := l.code
  (9 ≤ n && n ≤ 13) || (28 ≤ n && n ≤ 32) || n == 0x85 || n == 0xA0 || n == 0x1680 ||
    (0x2000 ≤ n && n ≤ 0x200A) || n == 0x2028 || n == 0x2029 || n == 0x202F || n == 0x205F ||
    n == 0x3000

/-- Space or tab, the only letters that may follow the dashes of a header line. -/
def isSpaceOrTab (l : Letter) : Bool := l == ' ' || l == '\t'

/-- A list without the longest run at its end that has the property. -/
def dropEndWhile {α : Type} (p : α → Bool) (xs : List α) : List α :=
  (xs.reverse.dropWhile p).reverse

def trimEnd (t : Text) : Text := dropEndWhile isBlank t

def trim (t : Text) : Text := trimEnd (t.dropWhile isBlank)

def stripPrefix? : (word text : Text) → Option Text
  | [], text => some text
  | _ :: _, [] => none
  | w :: word, l :: text => if w = l then stripPrefix? word text else none

def splitFirst? (word : Text) : Text → Option (Text × Text)
  | [] => (stripPrefix? word []).map ([], ·)
  | l :: text =>
    match stripPrefix? word (l :: text) with
    | some rest => some ([], rest)
    | none => (splitFirst? word text).map fun (before, after) => (l :: before, after)

def includes (text word : Text) : Bool := (splitFirst? word text).isSome

def startsWith (text word : Text) : Bool := (stripPrefix? word text).isSome

def endsWith (text word : Text) : Bool := (stripPrefix? word.reverse text.reverse).isSome

/-- Replaces the occurrences of `word` met from left to right; `skip` counts the letters of an
occurrence that has already been replaced. -/
def replaceFrom (word new : Text) : (skip : Nat) → Text → Text
  | _, [] => []
  | skip + 1, _ :: text => replaceFrom word new skip text
  | 0, l :: text =>
    if (stripPrefix? word (l :: text)).isSome then
      new ++ replaceFrom word new (word.length - 1) text
    else l :: replaceFrom word new 0 text

def replaceAll (text word new : Text) : Text := replaceFrom word new 0 text

def isLineEnd (l : Letter) : Bool :=
  let n := l.code
  (10 ≤ n && n ≤ 13) || (28 ≤ n && n ≤ 30) || n == 0x85 || n == 0x2028 || n == 0x2029

/-- The lines of a text, `line` being the part of the current line already read, last letter first.
A final line end adds no empty line. -/
def linesFrom (line : Text) : Text → List Text
  | [] => if line.isEmpty then [] else [line.reverse]
  | .char '\r' :: .char '\n' :: text => line.reverse :: linesFrom [] text
  | l :: text =>
    if isLineEnd l then line.reverse :: linesFrom [] text else linesFrom (l :: line) text

def lines (text : Text) : List Text := linesFrom [] text

/-- The text of a file as it is read: every line ends in `\n`. -/
def newlines : Text → Text
  | [] => []
  | .char '\r' :: .char '\n' :: text => .char '\n' :: newlines text
  | l :: text => (if l = '\r' then .char '\n' else l) :: newlines text

end Text

end AgentConfig
