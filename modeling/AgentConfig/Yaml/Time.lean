import AgentConfig.Yaml.Tag
import AgentConfig.Yaml.Token

namespace AgentConfig.Yaml

structure Date where
  year : Nat
  month : Nat
  day : Nat
  deriving DecidableEq, Repr

/-- A date with a time of day and, if known, the offset from universal time in seconds. -/
structure Moment where
  date : Date
  hour : Nat
  minute : Nat
  second : Nat
  microsecond : Nat
  offset : Option Int
  deriving DecidableEq, Repr

namespace Date

def isLeap (year : Nat) : Bool := year % 4 == 0 && (year % 100 != 0 || year % 400 == 0)

def daysIn (year month : Nat) : Nat :=
  if month = 2 then (if isLeap year then 29 else 28)
  else if month = 4 ∨ month = 6 ∨ month = 9 ∨ month = 11 then 30
  else 31

def check (d : Date) : Except Fault Date :=
  if d.year = 0 then .error (.unconvertible "year 0 is out of range")
  else if d.month < 1 ∨ 12 < d.month then .error (.unconvertible "month must be in 1..12")
  else if d.day < 1 ∨ daysIn d.year d.month < d.day then
    .error (.unconvertible "day is out of range for month")
  else .ok d

def dayNumber (d : Date) : Nat :=
  let y := d.year - 1
  365 * y + y / 4 - y / 100 + y / 400 +
    (List.range (d.month - 1)).foldl (fun days m => days + daysIn d.year (m + 1)) 0 + d.day

/-- `2024-01-31` -/
def text (d : Date) : Text :=
  Text.padded 4 d.year ++ "-" ++ Text.padded 2 d.month ++ "-" ++ Text.padded 2 d.day

def literal (d : Date) : Text :=
  "datetime.date(" ++ Text.intercalate ", " ([d.year, d.month, d.day].map Text.ofNat) ++ ")"

end Date

def spanLiteral (seconds : Int) : Text :=
  let days := seconds.fdiv 86400
  let rest := seconds.fmod 86400
  let parts : List Text := (if days = 0 then [] else ["days=" ++ Text.ofInt days]) ++
    (if rest = 0 then [] else ["seconds=" ++ Text.ofInt rest])
  "datetime.timedelta(" ++
    (if parts.isEmpty then ("0" : Text) else Text.intercalate ", " parts) ++ ")"

def checkOffset (seconds : Int) : Except Fault Int :=
  if seconds.natAbs < 86400 then .ok seconds
  else
    .error (.unconvertible
      ("offset must be a timedelta strictly between -timedelta(hours=24) and " ++
      "timedelta(hours=24), not " ++ spanLiteral seconds ++ "."))

namespace Moment

def check (m : Moment) : Except Fault Moment := do
  let _ ← m.date.check
  if 23 < m.hour then .error (.unconvertible "hour must be in 0..23")
  else if 59 < m.minute then .error (.unconvertible "minute must be in 0..59")
  else if 59 < m.second then .error (.unconvertible "second must be in 0..59")
  else .ok m

/-- Seconds since the start of the year 1, universal time where the offset is known. -/
def seconds (m : Moment) : Int :=
  86400 * m.date.dayNumber + 3600 * m.hour + 60 * m.minute + m.second - m.offset.getD 0

/-- Whether two moments are one: both with an offset at the same universal time, or both without one
at the same time. -/
def sameAs (m n : Moment) : Bool :=
  m.offset.isSome == n.offset.isSome && m.seconds == n.seconds && m.microsecond == n.microsecond

def offsetText (seconds : Int) : Text :=
  let minutes := seconds.natAbs / 60
  (if seconds < 0 then ("-" : Text) else "+") ++ Text.padded 2 (minutes / 60 : Nat) ++ ":" ++
    Text.padded 2 (minutes % 60 : Nat)

/-- `2001-12-14 21:59:43.100000-05:00`, without a zero fraction or an unknown offset. -/
def text (m : Moment) : Text :=
  m.date.text ++ " " ++ Text.padded 2 m.hour ++ ":" ++ Text.padded 2 m.minute ++ ":" ++
    Text.padded 2 m.second ++
    (if m.microsecond = 0 then ("" : Text) else "." ++ Text.padded 6 m.microsecond) ++
    (m.offset.map offsetText).getD []

def literal (m : Moment) : Text :=
  let small := if m.microsecond = 0 then (if m.second = 0 then [] else [m.second])
    else [m.second, m.microsecond]
  let numbers := [m.date.year, m.date.month, m.date.day, m.hour, m.minute] ++ small
  let zone : List Text := match m.offset with
    | none => []
    | some 0 => ["tzinfo=datetime.timezone.utc"]
    | some seconds => ["tzinfo=datetime.timezone(" ++ spanLiteral seconds ++ ")"]
  "datetime.datetime(" ++ Text.intercalate ", " (numbers.map Text.ofNat ++ zone) ++ ")"

end Moment

def numeral (cs : List Char) : Nat := cs.foldl (fun n c => 10 * n + (c.toNat - 48)) 0

/-- The fraction of a second in millionths: cut or padded to six digits. -/
def microseconds (digits : List Char) : Nat :=
  numeral ((digits ++ List.replicate 6 '0').take 6)

def zoneOffset (cs : List Char) : Except Fault (Option Int) :=
  match cs.dropWhile Tag.isSpaceOrTab with
  | [] => .ok none
  | ['Z'] => .ok (some 0)
  | sign :: zone =>
    let parts := (zone.splitOn ':').map numeral
    let seconds : Int := 3600 * (parts.head?.getD 0) + 60 * ((parts.drop 1).head?.getD 0)
    (checkOffset (if sign = '-' then -seconds else seconds)).map some

def momentOf (date : Date) (clock : List Char) : Except Fault Moment := do
  let parts := clock.splitOn ':'
  let tail := List.intercalate [':'] (parts.drop 2)
  let rest := tail.drop 2
  let fraction := if rest.head? = some '.' then (rest.drop 1).takeWhile Char.isDigit else []
  let zone := if rest.head? = some '.' then (rest.drop 1).dropWhile Char.isDigit else rest
  let offset ← zoneOffset zone
  Moment.check
    { date, hour := numeral (parts.head?.getD []), minute := numeral ((parts.drop 1).head?.getD [])
      second := numeral (tail.take 2), microsecond := microseconds fraction, offset }

def timeOfChars (cs : List Char) : Except Fault (Date ⊕ Moment) :=
  match Tag.splitDate? cs with
  | none => .error .shapelessTime
  | some (year, month, day, rest) =>
    let date : Date := ⟨numeral year, numeral month, numeral day⟩
    if !(Tag.digitsBetween 4 4 year && Tag.digitsBetween 1 2 month &&
        Tag.digitsBetween 1 2 day) then
      .error .shapelessTime
    else if rest.isEmpty then date.check.map .inl
    else
      match Tag.clockAfterDate? rest with
      | none => .error .shapelessTime
      | some clock =>
        if Tag.isClock clock then (momentOf date clock).map .inr else .error .shapelessTime

def timeOf (text : Text) : Except Fault (Date ⊕ Moment) :=
  match text.chars? with
  | some cs => timeOfChars (Tag.dropFinalBreak cs)
  | none => .error .shapelessTime

end AgentConfig.Yaml
