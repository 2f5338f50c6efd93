import AgentConfig.Text.Basic

namespace AgentConfig.Text

/-- Ranges beyond ASCII that start with a capital, in which capitals and their lower-case forms take
turns. -/
def alternating : List (Nat × Nat) :=
  ranges
    "100-2E 4-4 3-E 3-2C 3-4 5-2 3 4 6 7 8-4 3 5 3 4-2 3 4 9 3 3-10 3-10 4-2 4-26 4-10 9 6 5-8
      122-2 4 62-16 9 3 66-20 A-34 3-C 3-5E 18D2-94 C-5E 285 ADD 7-4 7 3 B-62 9-2 5 794E-2C 14-1A
      88-C 4-3C B-2 3-8 5 5-2 4-12 C-E 5-2 7 6-2 1D"

/-- Ranges of other capitals beyond ASCII, each with the lower-case form of the first one. -/
def capitals : List ((Nat × Nat) × Nat) :=
  (ranges
    "C0-16 2-6 9A 9 5 3-1 4 1 1 3 1 2 1 5 1 2 7 3 5 3-1 5 D 3 3 27 5 1 29 1A 3 1 5 1 1 13A 7 2-2 2
      2-1 2-10 2-8 24 25 5 4-2 1-F 1-1F 91 71-25 B4A-25 2 6 2D3-4F 1-5 89B-2A 3-2 1DF 6A-7 9-5 B-7
      9-7 9-5 C 2 2 2 9-7 19-7 9-7 9-7 9-1 1-1 1 C-3 1 C-1 1-1 D-1 1-1 1 C-1 1-1 1 12A 4 1 7 2E-F
      347-19 731-2F 33 1 1 9 1 1 1 E-1 7AFE 10 1D 1 1 1 1 2 1 1 1 11 1 1 575B-19 4C6-27 89-23 9D-A
      2-E 2-6 2-1 6EB-32 BEE-1F 5581-1F 7AA1-21").zip (codes
    "E0 F8 FF 253 254 256 1DD 259 25B 260 263 269 268 26F 272 275 280 283 288 28A 292 1C6 1C9 1CC
      1F3 195 1BF 19E 2C65 19A 2C66 180 289 28C 3F3 3AC 3AD 3CC 3CD 3B1 3C3 3D7 3B8 3F2 37B 450 430
      4CF 561 2D00 2D27 2D2D AB70 13F8 10D0 10FD DF 1F00 1F10 1F20 1F30 1F40 1F51 1F53 1F55 1F57
      1F60 1F80 1F90 1FA0 1FB0 1F70 1FB3 1F72 1FC3 1FD0 1F76 1FE0 1F7A 1FE5 1F78 1F7C 1FF3 3C9 6B
      E5 214E 2170 24D0 2C30 26B 1D7D 27D 251 271 250 252 23F 1D79 265 266 25C 261 26C 26A 29E 287
      29D AB53 A794 282 1D8E FF41 10428 104D8 10597 105A3 105B3 105BB 10CC0 118C0 16E60 1E922")

def cased : List (Nat × Nat) :=
  ranges
    "41-19 7-19 30 B 5 6-16 2-1E 2-C2 2-3 5-CF 2-1A C1-3 3-1 4-2 2 7 2-2 2 2-13 2-52 2-8A 9-A5
      2-25 A-28 B18-25 2 6 3-2A 3-2 2A1-55 3-5 883-8 8-2A 3-2 41-2B 40-C 2-21 66-115 3-5 3-25 3-5
      3-7 2 2 2 2-1E 3-34 2-6 2 4-2 2-6 4-3 3-5 5-C 6-2 2-6 106 5 3-9 2 4-4 7 2 2 2-3 2-5 5 3-3 6-4
      5 12-1F 4-1 332-33 717-7B 3-66 7-3 4-1 D-25 2 6 7913-2D 13-1B 87-4D 2-16 4-3 2-3A 6-1 2 2-4
      1C-1 4 336-2A 6-8 8-4F 4F41-6 D-4 40A-19 7-19 4A6-4F 61-23 5-23 75-A 2-E 2-6 2-1 2-A 2-E 2-6
      2-1 6C4-32 E-32 BAE-3F 5561-3F 6581-54 2-46 2-1 3 3-1 3-3 2-B 2 2-6 2-40 2-3 3-7 2-6 2-1B 2-3
      2-4 2 4-6 2-153 3-18 2-18 2-1E 2-18 2-1E 2-18 2-1E 2-18 2-1E 2-18 2-7 735-9 2-13 9E2-43
      7ED-19 7-19 7-19"

/-- Marks that are passed over when the end of a word is looked for. -/
def caseIgnorable : List (Nat × Nat) :=
  ranges
    "27 7 C 24 2 48 5 2 5 3-1 1F8-BF 5-1 5 A-1 2 FC-6 D0 6 32-2C 2 2-1 2-1 2 2D C-5 B-A 2 24 B-14
      11 66-7 2-9 2-3 22 2 1F-1A 5C-A 3B-A 5 3 19-17 2C-2 2D 8-1 7-7 2A-39 38 2 5-7 5 4-6 B-1 E 10
      3B 5-3 9 15-1 1B 3-1 3A 5-1 5-1 3-2 4 1F-1 4 C-1 3A 5-4 2-1 5 15-1 17-5 2 3B 3 2-3 9 8-1 C-1
      1F 3E D 33 4 38 2-2 6-2 2-3 8-1 C-1 1E 3B 3 7 6-1 15-1 1D-1 3A-1 5-3 9 15-1 1E 49 8-2 2 5B
      3-6 C-8 63 3-8 A 2-5 4B-1 1C 2 2 38-D 2-4 2-1 6-A 2-23 A 67-3 2-5 2-1 3-1 1A-1 5-2 11-3 E 3-1
      7 10 5F 261-2 3B3-2 1E-1 1F-1 1F-1 41-1 2-6 9 3-A 4 6 2E-4 34 42-1 23 77-2 5-1 A 7-2 DC-1 3
      3B 2-6 2 2 3-7 7-9 3 28 9-1E 32-3 31 2-4 2 6 29-8 D-1 21-3 3-1 2-2 39 2-1 4 2-2 3B-7 3-1 41-5
      53-2 2-C 2-6 5 7 4-1 33-3E E 23-64 1BE 2-2 C-2 E-2 E-2 E-1 D-4 9-1 B 3 3-4 32-4 2-9 2 E 11-C
      34-20 B8C-1 72-2 7E 10 61-1F 30 1D6 25-3 4-4 6 5E-5 5E-2 6F17 4E3-5 10F 63-3 2-9 2 1D-3 51-1
      F-21 4F 18-2 68-2 4-1 9 4 5 1A-1 6 98-1 1B-11 E 27-7 1A-A 2F-2 31 3-3 3-1 12 16-1 43-5 3-1
      3-1 D 9 24 C 34 2-2 3-1 6-1 2 1C F-1 6-1 2 65-4 A-2 7A 3 5 4F31 94-10 23E-F 4 D-F 23 3 AA 8 7
      C 24 2 30 2E-1 44 16-2 202 E3 96-4 406-5 2-29 2-8 247-2 2-1 6-3 29-2 5 A6-1 23E-3 184-1 9A-A
      32-3 7C 37-E 2A 3-1 B-2 32-3 3-1 3 5 B 33-2 25-4 2-7 3F D-1 35-8 B-3 3 60-2 3 2-1 7 A1 4-7
      16-1 3A-1 4 26-6 4-4 C4-7 3-2 2 18 55-5 2 5-1 2-1 EF-3 7-1 2-1 1C-1 56-7 3 2-1 6B 2 3-5 2
      66-2 3-3 2-4 104-8 2-1 101-1 2 5 91-3 3-1 5 21-9 29-5 3-3 9 A-5 3-2 2F-C 2-1 197-6 2-5 2
      53-15 3-6 2-1 2-1 7B-5 4 2-1 2-6 2 49-1 4 2 15C-1 153C-8 36B8-4 3C-6 A-3 40C 40-10 41-1 2-1
      400C-3 2-6 2-1 C9F-1 2-3 125D-2D 3-16 221-2 A-F 3-6 1F-3 95-2 7BC-36 5-31 9 F 17-4 2-E 551-6
      2-10 3-6 2-1 2-4 106-D 171 3E-3 5E1-6 6E-7 AB0-4 C0C02 1F-5F 81-EF"

def lowerCode (n : Nat) : Nat :=
  if n < 0x80 then (if 0x41 ≤ n ∧ n ≤ 0x5A then n + 32 else n)
  else if alternating.any fun (first, last) => first ≤ n && n ≤ last && (n - first) % 2 == 0 then
    n + 1
  else
    match capitals.find? fun ((first, last), _) => first ≤ n && n ≤ last with
    | some ((first, _), lower) => lower + (n - first)
    | none => n

/-- Whether the next letter that is not passed over has a case. -/
def startsCased (text : Text) : Bool :=
  match text.dropWhile fun l => inRanges l.code caseIgnorable with
  | l :: _ => inRanges l.code cased
  | [] => false

/-- The lower-case forms of letters; `before` holds those already passed, last one first. -/
def lowerFrom (before : Text) : Text → Text
  | [] => []
  | l :: text =>
    let new : Text :=
      if l.code = 0x130 then [.char 'i', .char '\u0307']
      else if l.code = 0x3A3 then
        [.char (if startsCased before && !startsCased text then 'ς' else 'σ')]
      else [.ofCode (lowerCode l.code)]
    new ++ lowerFrom (l :: before) text

def lower (text : Text) : Text := lowerFrom [] text

end AgentConfig.Text
