import AgentConfig.Text.Basic

namespace AgentConfig.Cells

def marks : List (Nat × Nat) :=
  Text.ranges
    "0-1F 60-20 E 253-6F 114-6 108-2C 2 2-1 2-1 2 39-5 B-A 2 2F-14 11 66-7 2-5 3-1 2-3 22 2 1F-1A
      5C-A 3B-8 A 19-3 2-8 2-2 2-4 2C-2 35-1 7-7 2B-39 37-2 2-11 2-6 B-1 1E-2 39 2-6 3-1 3-2 A B-1
      1B 3-2 39 2-4 5-1 3-2 4 1F-1 4 C-2 39 2-7 2-2 2-2 15-1 17-5 2-2 39 2-6 3-1 3-2 8-2 B-1 1F
      3C-4 4-2 2-3 A 29-4 38 2-6 2-2 2-3 8-1 C-1 1E-2 39 2-6 2-2 2-3 8-1 C-1 10 D-3 38-1 2-6 2-2
      2-3 A B-1 1E-2 47 5-5 2 2-7 13-1 3E 3-6 D-7 63 3-8 C-6 4A-1 1C 2 2 5-1 32-13 2-1 6-A 2-23 A
      65-13 18-3 5-2 2-2 3-6 4-3 E-B 2 B-3 C3-9F 15E-2 3B3-3 1D-2 1E-1 1F-1 41-1F A 2E-4 76-1 23
      77-B 5-B DC-4 3A-9 2-1C 3 31-1E 32-4 30-10 27-8 D-2 1F-C 39-D 31-13 99-2 2-14 5 7 3-2 C7-3F
      20C-4 19-6 32-4 2-9 61-20 BFF-2 8E 61-1F 22B-5 6A-1 75D5-3 2-9 21-1 51-1 111 4 5 18-4 5 54-1
      33-11 1B-11 E 27-7 1A-C 2D-3 30-D 25 44-D D 9-1 2E-2 33 2-2 3-1 6-1 2 2A-4 6-1 ED-7 2-1
      2BC3-4F 231F 2E2-F 11-F D0 FA-2 202 E3 96-4 687-2 2-1 6-3 29-2 5 A6-1 23E-3 184-1 51-2 47-A
      32-3 7B-2 36-E 2A 3-1 B-3 2E-A 3 5 B 33-2 25-D 11-1 2D D-2 31-D 9-3 2-1 5D-B 7 3 9E-B 16-3
      38-1 2-6 3-1 3-2 A B-1 3-6 4-4 C1-11 18 52-13 EC-6 3-8 1C-1 53-10 6B-C 66-E 101-E F6-5 2-1
      3-3 2 2-1 8E-6 3-6 4 1D-9 29-6 2-3 9 A-A 2F-F 196-7 2-7 53-15 2-D 7B-5 4 2-1 2-6 2 43-4 2-1
      2-4 15C-3 A-1 2 31-6 4-4 14EE-10 7-E 369B-4 3C-6 419 2-36 8-3 52 C-1 4CAC-1 2-3 125D-2D 3-16
      21F-4 4-15 3-6 1F-3 95-2 7BC-36 5-31 9 F 17-4 2-E 551-6 2-10 3-6 2-1 2-4 65 A1-6 178 3E-3
      1FD-3 3E1-6 6E-6 AB1-4 C0C02 1F-5F 81-EF"

def wide : List (Nat × Nat) :=
  Text.ranges
    "1100-5F 11BB-1 E-1 BF-3 4 3 20A-1 16-1 33-B 2C 14 E 9-1 12-1 6-1 9 6 16 8-1 2 5 3 8 5-1 1D 24
      2 5-2 2 3E-2 19 F 35C-1 34 5 32B-19 2-58 D-D5 1B-39 7-E 3-55 5-64 6-2A 2-5D 2-53 C-2F 2-27
      9-1B6F 41-568C 4-36 49A-1C 284-2BA3 215D-1FF 311-9 17-22 2-12 2-3 96-5F 80-6 6FFA-3 1D-17F7
      9-4D5 2B-8 22E8-3 2-6 2-1 2-122 10 1E-2 3 F-3 9-18B 3D09 CB BF 3-9 66-2 E-2B 5-8 8-1 F-5
      9B-20 D-8 2-45 2-15 D-2A 5-4 D-10 4 4-2 6-3E 2 2-BA 3-3E E-3 2-17 13 1B-1 E 57-54 31-45 7 4-2
      3-2 5-3 C-1 8-8 E4-B 5 11C-2E 2-9 2-B8 71-C 4-8 8-2D 2-6 9-D 5-8 8-8 508-FFFD 3-FFFD"

def ofLetter (l : Letter) : Nat :=
  let n := l.code
  if 0x20 ≤ n && n < 0x7F then 1
  else if Text.inRanges n marks then 0
  else if Text.inRanges n wide then 2
  else 1

def ofText (text : Text) : Nat := text.foldl (fun n l => n + ofLetter l) 0

/-- The start of a text that fills some cells; a wide character that would stand half outside leaves
a space. -/
def crop : (room : Nat) → Text → Text
  | _, [] => []
  | 0, _ => []
  | room + 1, l :: text =>
    if ofLetter l ≤ room + 1 then l :: crop (room + 1 - ofLetter l) text else [.char ' ']

/-- A text in pieces of at most `width` cells; `used` cells of the first one are taken. -/
def chopFrom (width used : Nat) : Text → List Text
  | [] => [[]]
  | l :: text =>
    if width < used + ofLetter l then
      match chopFrom width (ofLetter l) text with
      | piece :: pieces => [] :: (l :: piece) :: pieces
      | [] => [[], [l]]
    else
      match chopFrom width (used + ofLetter l) text with
      | piece :: pieces => (l :: piece) :: pieces
      | [] => [[l]]

def chop (width : Nat) (text : Text) : List Text := chopFrom width 0 text

end AgentConfig.Cells
