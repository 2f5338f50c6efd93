import AgentConfig.Text.Basic

namespace AgentConfig.Text

inductive Utf8Reason where
  | invalidStart
  | invalidContinuation
  | unexpectedEnd
  deriving DecidableEq, Repr

/-- The first run of bytes that is no character: its first byte, its place and its length. -/
structure Utf8Error where
  position : Nat
  length : Nat
  byte : UInt8
  reason : Utf8Reason
  deriving DecidableEq, Repr

def Utf8Reason.text : Utf8Reason → Text
  | .invalidStart => "invalid start byte"
  | .invalidContinuation => "invalid continuation byte"
  | .unexpectedEnd => "unexpected end of data"

def Utf8Error.message (e : Utf8Error) : Text :=
  let place : Text :=
    if e.length = 1 then "byte 0x" ++ hex 2 e.byte.toNat ++ " in position " ++ ofNat e.position
    else "bytes in position " ++ ofNat e.position ++ "-" ++
      ofNat (e.position + e.length - 1)
  "'utf-8' codec can't decode " ++ place ++ ": " ++ e.reason.text

def isContinuation (b : UInt8) : Bool := 0x80 ≤ b && b ≤ 0xBF

/-- Whether `second` may follow the first byte `first` of a character of three or four bytes. -/
def isSecondByte (first second : UInt8) : Bool :=
  isContinuation second &&
    (if first = 0xE0 then 0xA0 ≤ second
     else if first = 0xED then second < 0xA0
     else if first = 0xF0 then 0x90 ≤ second
     else if first = 0xF4 then second < 0x90
     else true)

/-- How many bytes a character has that starts with `first`, or zero when none does. -/
def characterLength (first : UInt8) : Nat :=
  if first < 0x80 then 1
  else if first < 0xC2 then 0
  else if first < 0xE0 then 2
  else if first < 0xF0 then 3
  else if first < 0xF5 then 4
  else 0

/-- Checks the bytes after `first` against the continuation rules: the number of bytes that the
fault spans, or `none` when a whole character is there. `expected` bytes are still due. -/
def continuationFault (first : UInt8) :
    (expected read : Nat) → List UInt8 → Option (Nat × Utf8Reason)
  | 0, _, _ => none
  | _ + 1, read, [] => some (read, .unexpectedEnd)
  | expected + 1, read, b :: rest =>
    let fits := if read = 1 then isSecondByte first b else isContinuation b
    if fits then continuationFault first expected (read + 1) rest
    else some (read, .invalidContinuation)

/-- Where the bytes stop being text; `skip` bytes belong to a character already accepted. -/
def utf8Fault (position skip : Nat) : List UInt8 → Option Utf8Error
  | [] => none
  | b :: rest =>
    match skip with
    | skip + 1 => utf8Fault (position + 1) skip rest
    | 0 =>
      match characterLength b with
      | 0 => some { position, length := 1, byte := b, reason := .invalidStart }
      | n + 1 =>
        match continuationFault b n 1 rest with
        | some (length, reason) => some { position, length, byte := b, reason }
        | none => utf8Fault (position + 1) n rest

def decodeUtf8 (bytes : ByteArray) : Except Utf8Error Text :=
  match String.fromUTF8? bytes with
  | some s => .ok s
  | none =>
    .error ((utf8Fault 0 0 bytes.toList).getD
      { position := 0, length := 0, byte := 0, reason := .invalidStart })

/-- The text of a file: decoded, with every line end read as `\n`. -/
def readText (bytes : ByteArray) : Except Utf8Error Text := (decodeUtf8 bytes).map newlines

def bytes? (text : Text) : Option ByteArray := text.string?.map String.toUTF8

def nameLetterBytes? : Letter → Option (List UInt8)
  | .char c => some (String.utf8EncodeChar c)
  | .half place =>
    if 0x480 ≤ place.val ∧ place.val < 0x500 then some [UInt8.ofNat place.val] else none

def nameBytes? (name : Text) : Option (List UInt8) := (name.mapM nameLetterBytes?).map List.flatten

def characterCode (first : UInt8) (rest : List UInt8) : Nat :=
  let start :=
    match rest.length with
    | 0 => first.toNat
    | 1 => first.toNat % 32
    | 2 => first.toNat % 16
    | _ => first.toNat % 8
  rest.foldl (fun code b => 64 * code + b.toNat % 64) start

/-- The name that bytes stand for; `skip` bytes belong to a character already read. -/
def nameOfBytesFrom (skip : Nat) : List UInt8 → Text
  | [] => []
  | b :: rest =>
    match skip with
    | skip + 1 => nameOfBytesFrom skip rest
    | 0 =>
      let isolated := Letter.ofCode (0xDC00 + b.toNat)
      match characterLength b with
      | 0 => isolated :: nameOfBytesFrom 0 rest
      | n + 1 =>
        match continuationFault b n 1 rest with
        | some _ => isolated :: nameOfBytesFrom 0 rest
        | none => Letter.ofCode (characterCode b (rest.take n)) :: nameOfBytesFrom n rest

def nameOfBytes (bytes : List UInt8) : Text := nameOfBytesFrom 0 bytes

/-- A name as it is read back, if a file can have it: halves may join to a character. -/
def fileName? (name : Text) : Option Text :=
  if name.chars?.isSome then some name else (nameBytes? name).map nameOfBytes

end AgentConfig.Text
