import AgentConfig.Text.Basic
import Mathlib.Data.List.Infix
import Mathlib.Data.List.DropRight

namespace AgentConfig.Text

open List

variable {word text before after rest : Text} {l : Letter} {parts : List Text}

theorem stripPrefix?_eq_some_iff : stripPrefix? word text = some rest ↔ text = word ++ rest := by
  induction word generalizing text with
  | nil => simp [stripPrefix?]
  | cons w word ih =>
    cases text with
    | nil => simp [stripPrefix?]
    | cons l text =>
      by_cases h : w = l
      · simp [stripPrefix?, h, ih]
      · simp [stripPrefix?, h, Ne.symm h]

@[simp] theorem stripPrefix?_append (word rest : Text) :
    stripPrefix? word (word ++ rest) = some rest :=
  stripPrefix?_eq_some_iff.mpr rfl

theorem startsWith_iff : startsWith text word = true ↔ word <+: text := by
  rw [startsWith, Option.isSome_iff_exists]
  exact exists_congr fun rest => stripPrefix?_eq_some_iff.trans eq_comm

theorem includes_iff : includes text word = true ↔ word <:+: text := by
  unfold includes
  induction text with
  | nil =>
    rw [splitFirst?, Option.isSome_map]
    exact startsWith_iff.trans (by simp)
  | cons l text ih =>
    rw [infix_cons_iff, ← ih, ← startsWith_iff, startsWith, splitFirst?]
    cases stripPrefix? word (l :: text) <;> simp

theorem splitFirst?_eq_none_iff :
    splitFirst? word text = none ↔ ¬ word <:+: text := by
  rw [← includes_iff, includes, Bool.not_eq_true, Option.isSome_eq_false_iff,
    Option.isNone_iff_eq_none]

theorem splitFirst?_append (hne : word ≠ []) (hfirst : ¬ word <:+: before ++ word.dropLast)
    (after : Text) :
    splitFirst? word (before ++ word ++ after) = some (before, after) := by
  induction before with
  | nil =>
    obtain ⟨w, more, rfl⟩ := exists_cons_of_ne_nil hne
    change splitFirst? (w :: more) (w :: (more ++ after)) = _
    rw [splitFirst?, ← cons_append, stripPrefix?_append]
  | cons l before ih =>
    have hhere : stripPrefix? word (l :: (before ++ word ++ after)) = none := by
      rw [Option.eq_none_iff_forall_ne_some]
      intro rest hrest
      rw [stripPrefix?_eq_some_iff] at hrest
      have hword : word <+: l :: (before ++ word ++ after) := hrest ▸ prefix_append _ _
      have hbegun : l :: before ++ word.dropLast <+: l :: (before ++ word ++ after) := by
        rw [cons_append, append_assoc]
        refine cons_prefix_cons.mpr ⟨rfl, (prefix_append_right_inj before).mpr ?_⟩
        have hstart := dropLast_prefix word
        exact hstart.trans (prefix_append _ _)
      refine hfirst (prefix_of_prefix_length_le hword hbegun ?_).isInfix
      simp only [cons_append, length_cons, length_append, length_dropLast]
      omega
    rw [cons_append, cons_append, splitFirst?, hhere,
      ih fun hwithin => hfirst (hwithin.trans (suffix_cons _ _).isInfix)]
    rfl

theorem not_infix_dropLast (hne : word ≠ []) : ¬ word <:+: word.dropLast := by
  intro hinfix
  have hlength := hinfix.length_le
  have hpos := length_pos_of_ne_nil hne
  rw [length_dropLast] at hlength
  omega

theorem splitFirst?_inv (h : splitFirst? word text = some (before, after)) :
    text = before ++ word ++ after ∧ (word ≠ [] → ¬ word <:+: before ++ word.dropLast) := by
  induction text generalizing before with
  | nil =>
    obtain ⟨rest, hrest, heq⟩ := Option.map_eq_some_iff.mp h
    obtain ⟨rfl, rfl⟩ := Prod.mk.inj heq
    exact ⟨stripPrefix?_eq_some_iff.mp hrest, not_infix_dropLast⟩
  | cons l text ih =>
    rw [splitFirst?] at h
    split at h
    next rest hrest =>
      obtain ⟨rfl, rfl⟩ := Prod.mk.inj (Option.some.inj h)
      exact ⟨stripPrefix?_eq_some_iff.mp hrest, not_infix_dropLast⟩
    next hhere =>
      obtain ⟨⟨more, rest⟩, hsplit, heq⟩ := Option.map_eq_some_iff.mp h
      obtain ⟨rfl, rfl⟩ := Prod.mk.inj heq
      obtain ⟨rfl, hfirst⟩ := ih hsplit
      refine ⟨rfl, fun hne hinfix => ?_⟩
      rcases infix_cons_iff.mp hinfix with hprefix | hinfix
      · -- a word that begins here is found here, whatever follows
        have hstarts : word <+: l :: (more ++ word ++ rest) := by
          refine hprefix.trans ?_
          rw [append_assoc]
          refine cons_prefix_cons.mpr ⟨rfl, (prefix_append_right_inj more).mpr ?_⟩
          have hstart := dropLast_prefix word
          exact hstart.trans (prefix_append _ _)
        obtain ⟨tail, htail⟩ := hstarts
        rw [stripPrefix?_eq_some_iff.mpr htail.symm] at hhere
        cases hhere
      · exact hfirst hne hinfix

theorem infix_append_cons (hl : l ∉ word) (h : word <:+: before ++ l :: after) :
    word <:+: before ∨ word <:+: after := by
  obtain ⟨start, rest, h⟩ := h
  rcases append_eq_append_iff.mp h with ⟨tail, rfl, -⟩ | ⟨tail, hword, hafter⟩
  · exact .inl ⟨start, tail, rfl⟩
  cases tail with
  | nil =>
    rw [append_nil] at hword
    exact .inl ⟨start, [], by rw [hword, append_nil]⟩
  | cons m tail =>
    obtain ⟨rfl, rfl⟩ := List.cons.inj hafter
    rcases append_eq_append_iff.mp hword with ⟨begun, -, hbegun⟩ | ⟨between, -, hbetween⟩
    · exact absurd (hbegun ▸ mem_append_right _ mem_cons_self) hl
    cases between with
    | nil =>
      rw [nil_append] at hbetween
      exact absurd (hbetween ▸ mem_cons_self) hl
    | cons m between =>
      obtain ⟨-, rfl⟩ := List.cons.inj hbetween
      exact .inr ⟨between, rest, rfl⟩

theorem not_infix_append_cons (hl : l ∉ word) (hbefore : ¬ word <:+: before)
    (hafter : ¬ word <:+: after) :
    ¬ word <:+: before ++ l :: after :=
  fun h => (infix_append_cons hl h).elim hbefore hafter

theorem intercalate_cons (separator first : Text) (rest : List Text) :
    intercalate separator (first :: rest) = first ++ rest.flatMap (separator ++ ·) := by
  induction rest generalizing first with
  | nil => simp [intercalate]
  | cons next rest ih =>
    rw [intercalate, intercalate_cons_cons, ← intercalate, ih next, flatMap_cons]
    simp only [append_assoc]

theorem intercalate_append (separator : Text) (hne : parts ≠ []) (more : List Text) :
    intercalate separator (parts ++ more) =
      intercalate separator parts ++ more.flatMap (separator ++ ·) := by
  obtain ⟨first, rest, rfl⟩ := exists_cons_of_ne_nil hne
  rw [cons_append, intercalate_cons, intercalate_cons, flatMap_append, append_assoc]

theorem exists_of_infix_intercalate (hne : word ≠ []) (hl : l ∉ word)
    (h : word <:+: intercalate [l] parts) : ∃ part ∈ parts, word <:+: part := by
  unfold intercalate at h
  induction parts with
  | nil => exact absurd (infix_nil.mp h) hne
  | cons part rest ih =>
    cases rest with
    | nil =>
      rw [intercalate_singleton] at h
      exact ⟨part, mem_cons_self, h⟩
    | cons next more =>
      rcases infix_append_cons hl h with hpart | hrest
      · exact ⟨part, mem_cons_self, hpart⟩
      · obtain ⟨other, hother, hinfix⟩ := ih hrest
        exact ⟨other, mem_cons_of_mem _ hother, hinfix⟩

variable {above body : Text}

theorem infix_dropWhile {α : Type} {p : α → Bool} {part whole : List α}
    (hpart : part.dropWhile p = part) (h : part <:+: whole) : part <:+: whole.dropWhile p := by
  induction whole with
  | nil => exact h
  | cons a rest ih =>
    by_cases ha : p a = true
    · rw [dropWhile_cons_of_pos ha]
      rcases infix_cons_iff.mp h with hprefix | hinfix
      · -- a part that starts here would start with a letter that is dropped
        cases part with
        | nil => exact nil_infix
        | cons b more =>
          obtain rfl : b = a := (cons_prefix_cons.mp hprefix).1
          rw [dropWhile_cons_of_pos ha] at hpart
          have hlength := (dropWhile_suffix (l := more) p).length_le
          rw [hpart, length_cons] at hlength
          omega
      · exact ih hinfix
    · rwa [dropWhile_cons_of_neg ha]

theorem dropWhile_of_trim (h : trim text = text) : text.dropWhile isBlank = text := by
  refine (dropWhile_suffix isBlank).eq_of_length_le ?_
  calc text.length = (trim text).length := (congrArg List.length h).symm
    _ = ((text.dropWhile isBlank).reverse.dropWhile isBlank).length := length_reverse
    _ ≤ (text.dropWhile isBlank).reverse.length := (dropWhile_suffix isBlank).length_le
    _ = (text.dropWhile isBlank).length := length_reverse

theorem trimEnd_of_trim (h : trim text = text) : trimEnd text = text := by
  rwa [trim, dropWhile_of_trim h] at h

theorem trimEnd_append (h : trimEnd above = above) (below : Text) :
    trimEnd (above ++ below) = above ++ trimEnd below := by
  have habove : above.reverse.dropWhile isBlank = above.reverse := reverse_eq_iff.mp h
  rw [trimEnd, dropEndWhile, reverse_append, dropWhile_append, habove]
  split
  next hempty => simp [trimEnd, dropEndWhile, isEmpty_iff.mp hempty]
  next => simp [trimEnd, dropEndWhile]

theorem trimEnd_append_blanks {blanks : Text} (text : Text)
    (h : ∀ l ∈ blanks, isBlank l = true) :
    trimEnd (text ++ blanks) = trimEnd text := by
  rw [trimEnd, dropEndWhile, reverse_append,
    dropWhile_append_of_pos fun l hl => h l (mem_reverse.mp hl)]
  rfl

theorem trim_between (hne : trim body ≠ []) : trim ("\n" ++ trim body ++ "\n") = trim body := by
  have hprefix : trim body <+: body.dropWhile isBlank := rdropWhile_prefix isBlank _
  have htwice : trimEnd (trim body) = trim body := rdropWhile_idempotent isBlank _
  have hfirst := head?_dropWhile_not isBlank body
  generalize trim body = kept at hne hprefix htwice
  obtain ⟨l, rest, rfl⟩ := exists_cons_of_ne_nil hne
  obtain ⟨dropped, hdropped⟩ := hprefix
  rw [← hdropped] at hfirst
  have hl : isBlank l = false := hfirst
  have hdrop : (("\n" : Text) ++ (l :: rest) ++ "\n").dropWhile isBlank =
      (l :: rest) ++ [Letter.char '\n'] := by
    change ((l :: rest) ++ [Letter.char '\n']).dropWhile isBlank = _
    rw [cons_append, dropWhile_cons_of_neg (by simp [hl])]
  rw [trim, hdrop]
  exact (rdropWhile_concat_pos isBlank (l :: rest) (.char '\n') rfl).trans htwice

variable {part whole : Text}

theorem infix_trimEnd (hpart : trim part = part) (h : part <:+: whole) :
    part <:+: trimEnd whole := by
  have hreverse : part.reverse.dropWhile isBlank = part.reverse := by
    rw [← reverse_reverse (part.reverse.dropWhile isBlank)]
    exact congrArg List.reverse (trimEnd_of_trim hpart)
  rw [← reverse_infix, trimEnd, dropEndWhile, reverse_reverse]
  exact infix_dropWhile hreverse <| reverse_infix.mpr h

theorem infix_trim (hpart : trim part = part) (h : part <:+: whole) : part <:+: trim whole :=
  infix_trimEnd hpart (infix_dropWhile (dropWhile_of_trim hpart) h)

theorem infix_intercalate {parts : List Text} (separator : Text) (h : part ∈ parts) :
    part <:+: intercalate separator parts := by
  unfold intercalate
  induction parts with
  | nil => cases h
  | cons first rest ih =>
    cases rest with
    | nil =>
      rw [mem_singleton.mp h, intercalate_singleton]
    | cons next more =>
      rw [intercalate_cons_cons]
      rcases mem_cons.mp h with rfl | hrest
      · exact ⟨[], separator ++ List.intercalate separator (next :: more), by simp⟩
      · exact (ih hrest).trans (suffix_append _ _).isInfix

end AgentConfig.Text
