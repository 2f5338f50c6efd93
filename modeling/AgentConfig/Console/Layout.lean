import AgentConfig.Console.Cells
import AgentConfig.Number.Binary64

namespace AgentConfig.Layout

/-- Runs that start with a word, as words with the blanks behind them. -/
def wordsFrom : List Text → List Text
  | [] => []
  | [word] => [word]
  | word :: gap :: runs => (word ++ gap) :: wordsFrom runs

/-- The words of a line with the blanks behind them; the first one has those before it as well. -/
def words (line : Text) : List Text :=
  match line.splitBy fun a b => Text.isBlank a == Text.isBlank b with
  | [] => []
  | run :: runs =>
    if run.any Text.isBlank then
      match wordsFrom runs with
      | word :: words => (run ++ word) :: words
      | [] => []
    else wordsFrom (run :: runs)

/-- The lines that are full, last one first, the one being filled, and the cells it has taken. -/
structure Filling where
  full : List Text := []
  line : Text := []
  used : Nat := 0

namespace Filling

def newLine (f : Filling) : Filling :=
  if f.full.isEmpty && f.line.isEmpty then f else { f with full := f.line :: f.full, line := [] }

def startWith (f : Filling) (piece : Text) : Filling :=
  { f.newLine with line := piece, used := Cells.ofText piece }

def add (folds : Bool) (width : Nat) (f : Filling) (word : Text) : Filling :=
  let length := Cells.ofText (Text.trimEnd word)
  if f.used + length ≤ width then
    { f with line := f.line ++ word, used := f.used + Cells.ofText word }
  else if width < length && folds then (Cells.chop width word).foldl startWith f
  else f.startWith word

def lines (f : Filling) : List Text := (f.line :: f.full).reverse

end Filling

def trimBeyond (width : Nat) (line : Text) : Text :=
  let kept := (Text.trimEnd line).length
  line.take (max kept (min line.length width))

def cut (folds : Bool) (width : Nat) (line : Text) : Text :=
  if Cells.ofText line ≤ width then line
  else if folds then Cells.crop width line
  else Cells.crop (width - 1) line ++ "…"

def tabSize : Nat := 8

/-- The text with spaces up to the next stop in place of tabs, from a column on. -/
def expandTabsFrom (column : Nat) : Text → Text
  | [] => []
  | l :: text =>
    if l = '\t' then
      let spaces := tabSize - column % tabSize
      List.replicate spaces (.char ' ') ++ expandTabsFrom (column + spaces) text
    else l :: expandTabsFrom (column + Cells.ofLetter l) text

def expandTabs (line : Text) : Text := expandTabsFrom 0 line

def wrapLine (folds : Bool) (width : Nat) (line : Text) : List Text :=
  let line := expandTabs line
  let broken :=
    match words line with
    | [] => [line]
    | words => (words.foldl (Filling.add folds width) {}).lines
  broken.map fun line => cut folds width (trimBeyond width line)

def wrap (folds : Bool) (width : Nat) (text : Text) : List Text :=
  (Text.splitOn '\n' text).flatMap (wrapLine folds width)

structure Column where
  fixed : Option Nat := none
  /-- The most width without padding, before a table is widened. -/
  most : Option Nat := none
  /-- Whether a long word is broken anywhere. -/
  folds : Bool := false
  deriving DecidableEq, Repr

inductive TableStyle where
  | framed
  | spaced
  | close
  deriving DecidableEq, Repr

namespace TableStyle

def padding (style : TableStyle) (count index : Nat) : Nat :=
  match style with
  | .close => if index + 1 < count then 2 else 0
  | _ => 2

def frame (style : TableStyle) (count : Nat) : Nat :=
  match style with
  | .framed => count + 1
  | _ => 0

end TableStyle

/-- Divides an amount in proportion to the ratios, each part rounded up from what is left. -/
def distribute (amount : Nat) (ratios : List Nat) : List Nat :=
  match ratios with
  | [] => []
  | ratio :: rest =>
    let total := ratios.foldl (· + ·) 0
    let part := if total = 0 then amount else (ratio * amount + total - 1) / total
    part :: distribute (amount - part) rest

/-- Takes an amount off the values that are `taking`, in equal parts rounded to nearest and at most
`most` from each. -/
def reduce (amount most : Nat) : List (Nat × Bool) → List Nat
  | [] => []
  | (value, taking) :: rest =>
    if taking then
      let count := (rest.filter (·.2)).length + 1
      let part := min most (Binary64.roundQuotient amount count)
      (value - part) :: reduce (amount - part) most rest
    else value :: reduce amount most rest

/-- Narrows the widest of the columns that may be narrowed until all fit. Every step takes something
off, so `fuel` need only exceed the width that is too much. -/
def narrow (room : Nat) (mayNarrow : List Bool) : (fuel : Nat) → List Nat → List Nat
  | 0, widths => widths
  | fuel + 1, widths =>
    let total := widths.foldl (· + ·) 0
    let able := (widths.zip mayNarrow).filter (·.2) |>.map (·.1)
    let widest := able.foldl max 0
    let second := (able.filter (· != widest)).foldl max 0
    if total ≤ room || able.isEmpty || widest = second then widths
    else
      let excess := total - room
      let taking := (widths.zip mayNarrow).map fun (w, may) => (w, may && w == widest)
      narrow room mayNarrow fuel (reduce excess (min excess (widest - second)) taking)

def textWidth (text : Text) : Nat := ((Text.lines text).map Cells.ofText).foldl max 0

/-- The width a column asks for, padding included, when it may have `room`. -/
def Column.measure (c : Column) (padding room : Nat) (cells : List Text) : Nat :=
  match c.fixed with
  | some width => min (width + padding) room
  | none =>
    let widest := (cells.map fun cell => min (min (textWidth cell) room + padding) room).foldl max 0
    match c.most with
    | some most => min widest (most + padding)
    | none => widest

def columnCells (count : Nat) (rows : List (List Text)) : List (List Text) :=
  (List.range count).map fun i => rows.map fun row => row.getD i []

def columnWidths (style : TableStyle) (columns : List Column) (room : Nat)
    (rows : List (List Text)) : List Nat :=
  let count := columns.length
  let measure (rooms : List Nat) : List Nat :=
    (columns.zipIdx.zip ((columnCells count rows).zip rooms)).map fun ((c, i), cells, room) =>
      c.measure (style.padding count i) room cells
  let sum (widths : List Nat) : Nat := widths.foldl (· + ·) 0
  let asked := (measure (columns.map fun _ => room)).map (max 1)
  if room < sum asked then
    let narrowed := narrow room (columns.map (·.fixed.isNone)) (sum asked) asked
    let narrowed :=
      if room < sum narrowed then
        reduce (sum narrowed - room) (sum narrowed) (narrowed.map (·, true))
      else narrowed
    let widths := measure narrowed
    if style = .framed && sum narrowed < room then
      (widths.zip (distribute (room - sum narrowed) widths)).map fun (w, more) => w + more
    else widths
  else if style = .framed then
    (asked.zip (distribute (room - sum asked) asked)).map fun (w, more) => w + more
  else asked

/-- A row of a table; a cell of several lines makes the row as high. -/
def rowLines (style : TableStyle) (columns : List Column) (widths : List Nat) (row : List Text) :
    List Text :=
  let count := columns.length
  let cells := (columns.zipIdx.zip (widths.zip row)).map fun ((c, i), width, cell) =>
    wrap c.folds (width - style.padding count i) cell
  let height := (cells.map List.length).foldl max 0
  (List.range height).map fun i => Text.intercalate "  " (cells.map fun lines => lines.getD i [])

def tableLines (style : TableStyle) (columns : List Column) (room : Nat) (rows : List (List Text)) :
    List Text :=
  let widths := columnWidths style columns (room - style.frame columns.length) rows
  rows.flatMap (rowLines style columns widths)

end AgentConfig.Layout
