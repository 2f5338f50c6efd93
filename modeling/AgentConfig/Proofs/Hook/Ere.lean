import AgentConfig.Text.Basic
import Mathlib.Computability.Language

namespace AgentConfig

open List Text

inductive Ere where
  /-- Matches the empty text alone. -/
  | empty
  /-- A dot: any letter but a line break. -/
  | any
  | letter (l : Letter)
  /-- A letter in the bracket. -/
  | oneOf (letters : List Letter)
  /-- A letter that is not in the bracket. -/
  | noneOf (letters : List Letter)
  | seq (first second : Ere)
  | alt (left right : Ere)
  | star (e : Ere)
  deriving DecidableEq, Repr

namespace Ere

variable {text other : Text} {l : Letter}

/-- The texts an expression matches as a whole. -/
@[simp]
def language : Ere → Language Letter
  | .empty => 1
  | .any => {text | ∃ l, l ≠ .char '\n' ∧ text = [l]}
  | .letter l => {[l]}
  | .oneOf letters => {text | ∃ l ∈ letters, text = [l]}
  | .noneOf letters => {text | ∃ l, l ∉ letters ∧ text = [l]}
  | .seq first second => first.language * second.language
  | .alt left right => left.language + right.language
  | .star e => KStar.kstar e.language

inductive Token where
  | any
  | letter (l : Letter)
  | oneOf (letters : List Letter)
  | noneOf (letters : List Letter)
  | star
  | plus
  | option
  | bar
  | opening
  | closing
  deriving DecidableEq, Repr

def special : Text := "\\^$|()[]+\x7b\x7d*?."

/-- Where in a text the next letter stands. -/
inductive Position where
  | outside
  /-- Behind a backslash. -/
  | escaped
  /-- Right behind an opening bracket. -/
  | opened
  /-- In a bracket, which may be negated, behind some of its letters. -/
  | inside (negated : Bool) (letters : List Letter)
  deriving DecidableEq, Repr

def token? (l : Letter) : Option Token :=
  match l with
  | .char '.' => some .any
  | .char '*' => some .star
  | .char '+' => some .plus
  | .char '?' => some .option
  | .char '|' => some .bar
  | .char '(' => some .opening
  | .char ')' => some .closing
  | _ => if l ∈ special then none else some (.letter l)

/-- A letter of a bracket; those that can stand for more than themselves are refused. -/
def insideStep (negated : Bool) (letters : List Letter) (l : Letter) : Option Position :=
  if l ∈ ("[]\\-" : Text) then none else some (.inside negated (letters ++ [l]))

/-- Where the next letter stands, and the token that is complete, if any. -/
def Position.step (position : Position) (l : Letter) : Option (Position × Option Token) :=
  match position with
  | .outside =>
    if l = '\\' then some (.escaped, none)
    else if l = '[' then some (.opened, none)
    else (token? l).map fun token => (.outside, some token)
  | .escaped => if l ∈ special then some (.outside, some (.letter l)) else none
  | .opened =>
    if l = '^' then some (.inside true [], none)
    else (insideStep false [] l).map (·, none)
  | .inside negated letters =>
    if l = ']' ∧ letters ≠ [] then
      some (.outside, some (if negated then .noneOf letters else .oneOf letters))
    else (insideStep negated letters l).map (·, none)

def tokensFrom (position : Position) : Text → Option (List Token)
  | [] => if position = .outside then some [] else none
  | l :: rest =>
    (position.step l).bind fun (next, token) => (tokensFrom next rest).map (token.toList ++ ·)

/-- An expression, or one in parentheses, that has been read up to some place. -/
structure Frame where
  /-- The branches before the last bar. -/
  done : Option Ere := none
  /-- The pieces since then, the last one first. -/
  pieces : List Ere := []

namespace Frame

def branch (f : Frame) : Ere := f.pieces.foldl (fun rest piece => .seq piece rest) .empty

def expression (f : Frame) : Ere := f.done.elim f.branch (.alt · f.branch)

def push (f : Frame) (piece : Ere) : Frame := { f with pieces := piece :: f.pieces }

def endBranch (f : Frame) : Frame := { done := some f.expression }

/-- Repeats the last piece in some way, if there is one. -/
def repeatLast? (f : Frame) (way : Ere → Ere) : Option Frame :=
  match f.pieces with
  | [] => none
  | piece :: pieces => some { f with pieces := way piece :: pieces }

end Frame

structure Stack where
  frame : Frame := {}
  outer : List Frame := []

def Stack.read (s : Stack) : Token → Option Stack
  | .any => some { s with frame := s.frame.push .any }
  | .letter l => some { s with frame := s.frame.push (.letter l) }
  | .oneOf letters => some { s with frame := s.frame.push (.oneOf letters) }
  | .noneOf letters => some { s with frame := s.frame.push (.noneOf letters) }
  | .star => (s.frame.repeatLast? .star).map ({ s with frame := · })
  | .plus => (s.frame.repeatLast? fun e => .seq e (.star e)).map ({ s with frame := · })
  | .option => (s.frame.repeatLast? fun e => .alt e .empty).map ({ s with frame := · })
  | .bar => some { s with frame := s.frame.endBranch }
  | .opening => some ⟨{}, s.frame :: s.outer⟩
  | .closing =>
    match s.outer with
    | [] => none
    | around :: outer => some ⟨around.push s.frame.expression, outer⟩

/-- The expression that has been read, if no parenthesis is open. -/
def Stack.expression? (s : Stack) : Option Ere :=
  if s.outer.isEmpty then some s.frame.expression else none

def ofText? (text : Text) : Option Ere := do
  let tokens ← tokensFrom .outside text
  (← tokens.foldlM Stack.read {}).expression?

theorem mem_star_iff {matched : Language Letter} {p : Letter → Prop}
    (h : ∀ text, text ∈ matched ↔ ∃ l, p l ∧ text = [l]) :
    text ∈ KStar.kstar matched ↔ ∀ l ∈ text, p l := by
  constructor
  · rintro ⟨pieces, rfl, hpieces⟩ l hl
    obtain ⟨piece, hpiece, hl⟩ := mem_flatten.mp hl
    obtain ⟨other, hother, rfl⟩ := (h piece).mp (hpieces piece hpiece)
    rwa [mem_singleton.mp hl]
  · intro hall
    refine ⟨text.map fun l => [l], text.flatMap_singleton'.symm, fun piece hpiece => ?_⟩
    obtain ⟨l, hl, rfl⟩ := mem_map.mp hpiece
    exact (h _).mpr ⟨l, hall l hl, rfl⟩

theorem mem_anyStar_iff : text ∈ (Ere.star .any).language ↔ .char '\n' ∉ text := by
  have hany : ∀ text, text ∈ Ere.any.language ↔ ∃ l, l ≠ .char '\n' ∧ text = [l] :=
    fun _ => Iff.rfl
  rw [language, mem_star_iff hany]
  exact ⟨fun h hmem => h _ hmem rfl, fun h l hl heq => h (heq ▸ hl)⟩

theorem mem_noneOfStar_iff : text ∈ (Ere.star (.noneOf [l])).language ↔ l ∉ text := by
  have hnone : ∀ text, text ∈ (Ere.noneOf [l]).language ↔ ∃ other, other ∉ [l] ∧ text = [other] :=
    fun _ => Iff.rfl
  rw [language, mem_star_iff hnone]
  simp only [mem_singleton]
  exact ⟨fun h hmem => h _ hmem rfl, fun h other hother heq => h (heq ▸ hother)⟩

theorem mem_sum_iff {each : List (Language Letter)} :
    text ∈ each.sum ↔ ∃ matched ∈ each, text ∈ matched := by
  induction each with
  | nil => simp
  | cons matched each ih => simp [Language.mem_add, ih]

namespace Frame

/-- The texts that the branches before the last bar match. -/
def before (f : Frame) : Language Letter := f.done.elim 0 language

theorem language_foldl (pieces : List Ere) (after : Ere) :
    (pieces.foldl (fun rest piece => Ere.seq piece rest) after).language =
      (pieces.map language).reverse.prod * after.language := by
  induction pieces generalizing after with
  | nil => simp
  | cons piece pieces ih => simp [ih, language, mul_assoc]

theorem language_branch_push (f : Frame) (piece : Ere) :
    (f.push piece).branch.language = f.branch.language * piece.language := by
  simp [branch, push, language_foldl, language]

theorem language_expression (f : Frame) : f.expression.language = f.before + f.branch.language := by
  cases hdone : f.done <;> simp [expression, before, hdone, language]

end Frame

/-- The text stands for these tokens, whatever follows it. -/
def Lexes (text : Text) (tokens : List Token) : Prop :=
  ∀ rest, tokensFrom .outside (text ++ rest) = (tokensFrom .outside rest).map (tokens ++ ·)

theorem Lexes.append {tokens others : List Token} (h : Lexes text tokens)
    (hother : Lexes other others) : Lexes (text ++ other) (tokens ++ others) := by
  intro rest
  rw [append_assoc, h, hother, Option.map_map]
  exact congrArg (Option.map · _) (funext fun ts => (append_assoc _ _ _).symm)

theorem lexes_token {token : Token} (hescape : l ≠ '\\') (hbracket : l ≠ '[')
    (h : token? l = some token) : Lexes [l] [token] := by
  intro rest
  rw [singleton_append, tokensFrom, Position.step]
  simp [hescape, hbracket, h]

theorem lexes_star : Lexes "*" [.star] := lexes_token (by decide) (by decide) rfl

/-- The text stands for pieces that match some texts in a row, wherever it is read: its tokens add
them to the branch that is being read, and change nothing else. -/
def Denotes (text : Text) (matched : Language Letter) : Prop :=
  ∃ (tokens : List Token) (change : Frame → Frame), Lexes text tokens ∧
    (∀ s : Stack, tokens.foldlM Stack.read s = some { s with frame := change s.frame }) ∧
    ∀ f, (change f).done = f.done ∧ (change f).branch.language = f.branch.language * matched

namespace Denotes

variable {other : Text} {matched others : Language Letter} {texts : List Text}
  {each : List (Language Letter)}

theorem nil : Denotes [] 1 := ⟨[], id, by simp [Lexes], fun _ => rfl, by simp⟩

theorem append (h : Denotes text matched) (hother : Denotes other others) :
    Denotes (text ++ other) (matched * others) := by
  obtain ⟨tokens, change, hlex, hread, hchange⟩ := h
  obtain ⟨tokens', change', hlex', hread', hchange'⟩ := hother
  refine ⟨tokens ++ tokens', change' ∘ change, hlex.append hlex', fun s => ?_, fun f => ?_⟩
  · rw [foldlM_append, hread, Option.bind_eq_bind, Option.bind_some, hread']
    rfl
  · obtain ⟨hdone, hbranch⟩ := hchange f
    obtain ⟨hdone', hbranch'⟩ := hchange' (change f)
    exact ⟨hdone'.trans hdone, by rw [Function.comp_apply, hbranch', hbranch, mul_assoc]⟩

theorem of_push (piece : Ere) (tokens : List Token) (hlex : Lexes text tokens) (hread : ∀ s : Stack,
      tokens.foldlM Stack.read s = some { s with frame := s.frame.push piece }) :
    Denotes text piece.language :=
  ⟨tokens, (·.push piece), hlex, hread, fun f => ⟨rfl, f.language_branch_push piece⟩⟩

theorem letter (h : l ∉ special) : Denotes [l] {[l]} := by
  have htoken : token? l = some (.letter l) := by
    unfold token?
    split
    case h_8 => exact if_neg h
    all_goals exact absurd (by simp [special, ofString, ofChars]) h
  have hne (other : Letter) (hother : other ∈ special) : l ≠ other := fun heq => h (heq ▸ hother)
  exact of_push (.letter l) [.letter l] (lexes_token (hne _ (by simp [special, ofString, ofChars]))
    (hne _ (by simp [special, ofString, ofChars])) htoken) fun _ => rfl

theorem escaped (h : l ∈ special) : Denotes [.char '\\', l] {[l]} := by
  refine of_push (.letter l) [.letter l] (fun rest => ?_) fun _ => rfl
  cases htokens : tokensFrom .outside rest <;> simp [tokensFrom, Position.step, h, htokens]

theorem any : Denotes "." Ere.any.language :=
  of_push .any [.any] (lexes_token (by decide) (by decide) rfl) fun _ => rfl

theorem anyStar : Denotes ".*" (Ere.star .any).language :=
  of_push (.star .any) [.any, .star]
    ((lexes_token (l := '.') (by decide) (by decide) rfl).append lexes_star) fun _ => rfl

theorem noSlashStar : Denotes "[^/]*" (Ere.star (.noneOf ['/'])).language := by
  have hbracket : Lexes "[^/]" [.noneOf ['/']] := by
    intro rest
    cases htokens : tokensFrom .outside rest <;>
      simp [ofString, ofChars, tokensFrom, Position.step, insideStep, htokens]
  exact of_push (.star (.noneOf ['/'])) [.noneOf ['/'], .star] (hbracket.append lexes_star)
    fun _ => rfl

/-- Branches with bars between them add what each of them matches to the frame that is read, and
leave the frames around it alone. -/
theorem exists_branches (h : Denotes text matched) (hrest : Forall₂ Denotes texts each) :
    ∃ (tokens : List Token) (change : Frame → Frame),
      Lexes (Text.intercalate "|" (text :: texts)) tokens ∧
      (∀ s : Stack, tokens.foldlM Stack.read s = some { s with frame := change s.frame }) ∧
      ∀ f, (change f).expression.language =
        f.before + (f.branch.language * matched + each.sum) := by
  induction hrest generalizing text matched with
  | nil =>
    obtain ⟨tokens, change, hlex, hread, hchange⟩ := h
    refine ⟨tokens, change, ?_, hread, fun f => ?_⟩
    · rwa [Text.intercalate, intercalate_singleton]
    · obtain ⟨hdone, hbranch⟩ := hchange f
      simp [Frame.language_expression, Frame.before, hdone, hbranch]
  | @cons other others texts each hother _ ih =>
    obtain ⟨tokens, change, hlex, hread, hchange⟩ := h
    obtain ⟨tokens', change', hlex', hread', hchange'⟩ := ih hother
    have hbar : Lexes "|" [.bar] := lexes_token (by decide) (by decide) rfl
    refine ⟨tokens ++ [.bar] ++ tokens', fun f => change' (change f).endBranch, ?_, fun s => ?_,
      fun f => ?_⟩
    · rw [Text.intercalate, intercalate_cons_cons]
      exact (hlex.append hbar).append hlex'
    · rw [foldlM_append, foldlM_append, hread]
      exact hread' _
    · obtain ⟨hdone, hbranch⟩ := hchange f
      have hbefore : (change f).endBranch.before = f.before + f.branch.language * matched := by
        simp [Frame.endBranch, Frame.before, Frame.language_expression, hdone, hbranch]
      have hone : (change f).endBranch.branch.language = 1 := rfl
      rw [hchange', hbefore, hone, one_mul, sum_cons]
      simp only [add_assoc]

theorem group (hne : texts ≠ []) (h : Forall₂ Denotes texts each) :
    Denotes ("(" ++ Text.intercalate "|" texts ++ ")") each.sum := by
  cases h with
  | nil => exact absurd rfl hne
  | @cons text matched texts each htext hrest =>
    obtain ⟨tokens, change, hlex, hread, hchange⟩ := htext.exists_branches hrest
    have hopen : Lexes "(" [.opening] := lexes_token (by decide) (by decide) rfl
    have hclose : Lexes ")" [.closing] := lexes_token (by decide) (by decide) rfl
    refine ⟨[.opening] ++ tokens ++ [.closing], fun f => f.push (change {}).expression,
      (hopen.append hlex).append hclose, fun s => ?_, fun f => ⟨rfl, ?_⟩⟩
    · have hinside := hread ⟨{}, s.frame :: s.outer⟩
      rw [foldlM_append, foldlM_append]
      change ((tokens.foldlM Stack.read ⟨{}, s.frame :: s.outer⟩).bind _) = _
      rw [hinside]
      rfl
    · rw [Frame.language_branch_push, hchange]
      simp [Frame.before, Frame.branch, language]

theorem exists_ofText? (h : Denotes text matched) :
    ∃ e, ofText? text = some e ∧ e.language = matched := by
  obtain ⟨tokens, change, hlex, hread, hchange⟩ := h
  refine ⟨(change {}).expression, ?_, ?_⟩
  · have htokens : tokensFrom .outside text = some tokens := by
      have hend := hlex []
      rw [append_nil] at hend
      rw [hend]
      simp [tokensFrom]
    rw [ofText?, htokens]
    change (tokens.foldlM Stack.read {}).bind _ = _
    rw [hread]
    rfl
  · obtain ⟨hdone, hbranch⟩ := hchange {}
    rw [Frame.language_expression, hbranch, Frame.before, hdone]
    simp [Frame.branch, language]

end Denotes

end Ere

end AgentConfig
