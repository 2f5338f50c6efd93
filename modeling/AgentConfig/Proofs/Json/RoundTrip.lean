import AgentConfig.Proofs.Json.Members
import AgentConfig.Proofs.Json.Numbers
import AgentConfig.Proofs.Json.Strings

namespace AgentConfig.Json

open List Text Cursor

variable {v : Json} {fuel levels level : Nat} {parts : List Text} {part tail text rest : Text}
  {l : Letter} {vs : List Json} {ms : List (Text × Json)} {c closing opening : Char}

mutual

/-- The document with the halves of its texts joined. -/
def joined : Json → Json
  | .str s => .str (joinHalves s)
  | .arr items => .arr (joinedItems items)
  | .obj members => .obj (joinedMembers members)
  | v => v

@[inherit_doc joined]
def joinedItems : List Json → List Json
  | [] => []
  | v :: rest => joined v :: joinedItems rest

@[inherit_doc joined]
def joinedMembers : List (Text × Json) → List (Text × Json)
  | [] => []
  | (k, v) :: rest => (joinHalves k, joined v) :: joinedMembers rest

end

theorem joinedItems_eq_map (vs : List Json) : joinedItems vs = vs.map joined := by
  induction vs with
  | nil => rfl
  | cons v vs ih => rw [joinedItems, ih, map_cons]

theorem joinedMembers_eq_map (members : Members) :
    joinedMembers members = members.map fun m => (joinHalves m.1, m.2.joined) := by
  induction members with
  | nil => rfl
  | cons m members ih => rw [joinedMembers, ih, map_cons]

/-- A document whose objects keep their keys apart, and whose numbers are such as are read. -/
inductive IsPlain : Json → Prop
  | null : IsPlain .null
  | bool (b : Bool) : IsPlain (.bool b)
  | int {k : Int} (h : (Nat.toDigits 10 k.natAbs).length ≤ Literal.maxDigits) : IsPlain (.int k)
  | real {x : Binary64} (h : x.IsRounded) : IsPlain (.real x)
  | str (s : Text) : IsPlain (.str s)
  | arr {items : List Json} (h : ∀ v ∈ items, IsPlain v) : IsPlain (.arr items)
  | obj {members : List (Text × Json)} (hkeys : (members.map fun m => joinHalves m.1).Nodup)
    (h : ∀ m ∈ members, IsPlain m.2) : IsPlain (.obj members)

namespace Cursor

theorem skipSpace_append (spaces : Text) (hspaces : ∀ l ∈ spaces, isSpace l = true)
    (hl : isSpace l = false) (position : Nat) :
    skipSpace ⟨position, spaces ++ l :: tail⟩ = ⟨position + spaces.length, l :: tail⟩ := by
  have hrun : (spaces ++ l :: tail).takeWhile isSpace = spaces := by
    rw [takeWhile_append_of_pos hspaces, takeWhile_cons_of_neg (by simp [hl]), append_nil]
  simp [skipSpace, drop, hrun]

theorem skipSpace_cons (hl : isSpace l = false) (position : Nat) (tail : Text) :
    skipSpace ⟨position, l :: tail⟩ = ⟨position, l :: tail⟩ :=
  skipSpace_append [] (by simp) hl position

theorem skipSpace_newline (hl : isSpace l = false) (level position : Nat) (tail : Text) :
    ∃ next, skipSpace ⟨position, newline level ++ l :: tail⟩ = ⟨next, l :: tail⟩ := by
  refine ⟨_, skipSpace_append _ ?_ hl position⟩
  intro x hx
  rcases mem_cons.mp hx with rfl | hx
  · rfl
  · rw [eq_of_mem_replicate hx]
    rfl

end Cursor

/-- The document is read at the start of any text that ends it, if there is fuel enough. -/
def Reads (v : Json) : Prop :=
  ∀ (level : Nat) {levels fuel : Nat} (position : Nat) {rest : Text}, EndsNumber rest →
    v.levels ≤ levels → 2 * (writeAt level v).length ≤ fuel →
    ∃ next, value levels fuel ⟨position, writeAt level v ++ rest⟩ = .ok (v.joined, ⟨next, rest⟩)

/-- A written document starts with a letter that is neither space nor a closing bracket, nor the
byte order mark. -/
theorem IsPlain.exists_first (h : IsPlain v) (level : Nat) :
    ∃ l tail, writeAt level v = l :: tail ∧ isSpace l = false ∧ l ≠ .char ']' ∧
      l ≠ .char '\ufeff' := by
  have hblock (opening closing : Char) (parts : List Text) :
      ∃ tail, writeBlock opening closing level parts = .char opening :: tail := by
    unfold writeBlock
    split
    · exact ⟨_, rfl⟩
    · exact ⟨_, rfl⟩
  have hnumber (n : Numeral) (negative : Bool) :
      ∃ l tail, ofChars (signed negative n.chars) = l :: tail ∧ isSpace l = false ∧
        l ≠ .char ']' ∧ l ≠ .char '\ufeff' := by
    obtain ⟨c, cs, hcons, hdigit⟩ := n.exists_chars
    rw [hcons]
    cases negative with
    | true => exact ⟨_, _, rfl, by decide, by decide, by decide⟩
    | false =>
      have hmem := mem_digits_of_isDigit hdigit
      fin_cases hmem <;> exact ⟨_, _, rfl, by decide, by decide, by decide⟩
  cases h with
  | null => exact ⟨_, _, rfl, by decide, by decide, by decide⟩
  | bool b => cases b <;> exact ⟨_, _, rfl, by decide, by decide, by decide⟩
  | @int k _ => rw [writeAt_int]; exact hnumber _ _
  | @real x h =>
    cases x with
    | nan => exact ⟨_, _, rfl, by decide, by decide, by decide⟩
    | infinite s => cases s <;> exact ⟨_, _, rfl, by decide, by decide, by decide⟩
    | finite s m e =>
      obtain ⟨n, htext, -, -⟩ := exists_writeAt_real h level s
      rw [htext]
      exact hnumber n s
  | str s => exact ⟨.char '"', _, rfl, by decide, by decide, by decide⟩
  | arr _ =>
    obtain ⟨tail, htail⟩ := hblock '[' ']' _
    exact ⟨_, tail, by rw [writeAt, htail], by decide, by decide, by decide⟩
  | obj _ _ =>
    obtain ⟨tail, htail⟩ := hblock '\x7b' '\x7d' _
    exact ⟨_, tail, by rw [writeAt, htail], by decide, by decide, by decide⟩

theorem string_write (s : Text) (hfuel : (s.flatMap writeLetter).length < fuel)
    (position : Nat) (rest : Text) :
    ∃ next, string fuel ⟨position, s.flatMap writeLetter ++ .char '"' :: rest⟩ =
      .ok (joinHalves s, ⟨next, rest⟩) := by
  obtain ⟨next, hnext⟩ := stringBody_write (position - 1) s hfuel
  exact ⟨next, by rw [string, hnext]; rfl⟩

theorem writeString_append (s rest : Text) :
    writeString s ++ rest = .char '"' :: (s.flatMap writeLetter ++ .char '"' :: rest) := by
  simp [writeString, ofString, ofChars]

theorem length_writeString (s : Text) :
    (writeString s).length = (s.flatMap writeLetter).length + 2 := by
  simp [writeString, ofString, ofChars]

theorem reads_str (s : Text) : Reads (.str s) := by
  intro level levels fuel position rest _ _ hfuel
  rw [writeAt, length_writeString] at hfuel
  obtain _ | fuel := fuel
  · omega
  obtain ⟨next, hnext⟩ := string_write s (show (s.flatMap writeLetter).length < fuel by omega)
    (position + 1) rest
  refine ⟨next, ?_⟩
  rw [writeAt, writeString_append, value]
  simp only [Cursor.drop, drop_one, tail_cons, hnext]
  rfl

theorem reads_null : Reads .null := by
  intro level levels fuel position rest _ _ hfuel
  have hlength : (writeAt level .null).length = 4 := rfl
  obtain _ | fuel := fuel
  · omega
  exact ⟨position + 4, rfl⟩

theorem reads_bool (b : Bool) : Reads (.bool b) := by
  intro level levels fuel position rest _ _ hfuel
  cases b with
  | true =>
    have hlength : (writeAt level (.bool true)).length = 4 := rfl
    obtain _ | fuel := fuel
    · omega
    exact ⟨position + 4, rfl⟩
  | false =>
    have hlength : (writeAt level (.bool false)).length = 5 := rfl
    obtain _ | fuel := fuel
    · omega
    exact ⟨position + 5, rfl⟩

theorem IsPlain.length_pos (h : IsPlain v) (level : Nat) : 0 < (writeAt level v).length := by
  obtain ⟨l, tail, hfirst, -⟩ := h.exists_first level
  simp [hfirst]

theorem reads_int {k : Int} (h : (Nat.toDigits 10 k.natAbs).length ≤ Literal.maxDigits) :
    Reads (.int k) := by
  intro level levels fuel position rest hrest _ hfuel
  have hpos := (IsPlain.int h).length_pos level
  obtain _ | fuel := fuel
  · omega
  exact value_int hrest levels fuel position h level

theorem reads_real {x : Binary64} (h : x.IsRounded) : Reads (.real x) := by
  intro level levels fuel position rest hrest _ hfuel
  have hpos := (IsPlain.real h).length_pos level
  obtain _ | fuel := fuel
  · omega
  cases x with
  | nan => exact ⟨position + 3, rfl⟩
  | infinite s =>
    cases s with
    | true => exact ⟨position + 9, rfl⟩
    | false => exact ⟨position + 8, rfl⟩
  | finite s m e => exact value_real hrest levels fuel position h s level

theorem endsNumber_char (h : isNumberChar c = false) (tail : Text) :
    EndsNumber (.char c :: tail) := by
  rintro _ ⟨⟩
  exact h

theorem endsNumber_newline (level : Nat) (tail : Text) : EndsNumber (newline level ++ tail) :=
  endsNumber_char (by decide) _

/-- The parts of a container from some part on, up to its closing bracket. -/
def blockTail (closing : Char) (level : Nat) (parts : List Text) : Text :=
  Text.intercalate (.char ',' :: newline (level + 1)) parts ++ newline level ++ [.char closing]

theorem writeBlock_append (opening closing : Char) (level : Nat) (hne : parts ≠ []) (rest : Text) :
    writeBlock opening closing level parts ++ rest =
      .char opening :: (newline (level + 1) ++ (blockTail closing level parts ++ rest)) := by
  simp [writeBlock, blockTail, hne]

theorem blockTail_singleton (closing : Char) (level : Nat) (part rest : Text) :
    blockTail closing level [part] ++ rest =
      part ++ (newline level ++ (.char closing :: rest)) := by
  simp [blockTail, Text.intercalate, List.intercalate]

theorem blockTail_cons (closing : Char) (level : Nat) (part next : Text) (more : List Text)
    (rest : Text) :
    blockTail closing level (part :: next :: more) ++ rest =
      part ++ (.char ',' :: (newline (level + 1) ++
        (blockTail closing level (next :: more) ++ rest))) := by
  simp [blockTail, Text.intercalate]

theorem length_blockTail_singleton (closing : Char) (level : Nat) (part : Text) :
    part.length + 2 ≤ (blockTail closing level [part]).length := by
  have h := congrArg List.length (blockTail_singleton closing level part [])
  simp only [append_nil, length_append, newline, length_cons] at h
  omega

theorem length_blockTail_cons (closing : Char) (level : Nat) (part next : Text) (more : List Text) :
    part.length + 2 + (blockTail closing level (next :: more)).length ≤
      (blockTail closing level (part :: next :: more)).length := by
  have h := congrArg List.length (blockTail_cons closing level part next more [])
  simp only [append_nil, length_append, newline, length_cons] at h
  omega

theorem exists_blockTail (closing : Char) (level : Nat)
    (hpart : part = l :: tail) (more : List Text) (rest : Text) :
    ∃ after, blockTail closing level (part :: more) ++ rest = l :: after := by
  cases more with
  | nil => exact ⟨_, by rw [blockTail_singleton, hpart]; rfl⟩
  | cons next more => exact ⟨_, by rw [blockTail_cons, hpart]; rfl⟩

theorem skipSpace_blockTail (closing : Char) (level : Nat)
    (hpart : part = l :: tail) (hl : isSpace l = false) (more : List Text) (rest : Text)
    (position : Nat) :
    ∃ next, skipSpace
        ⟨position, newline (level + 1) ++ (blockTail closing level (part :: more) ++ rest)⟩ =
      ⟨next, blockTail closing level (part :: more) ++ rest⟩ := by
  obtain ⟨after, hafter⟩ := exists_blockTail closing level hpart more rest
  rw [hafter]
  exact skipSpace_newline hl (level + 1) position after

theorem items_write (level : Nat) (hne : vs ≠ [])
    (hplain : ∀ v ∈ vs, IsPlain v) (hreads : ∀ v ∈ vs, Reads v) (hlevels : itemLevels vs ≤ levels)
    (hfuel : 2 * (blockTail ']' level (writeItems (level + 1) vs)).length ≤ fuel + 1)
    (position : Nat) (rest : Text) :
    ∃ next, items levels fuel ⟨position, blockTail ']' level (writeItems (level + 1) vs) ++ rest⟩ =
      .ok (joinedItems vs, ⟨next, rest⟩) := by
  induction vs generalizing fuel position with
  | nil => exact absurd rfl hne
  | cons v more ih =>
    rw [itemLevels, Nat.max_le] at hlevels
    cases more with
    | nil =>
      have hlength := length_blockTail_singleton ']' level (writeAt (level + 1) v)
      simp only [writeItems] at hfuel hlength ⊢
      obtain _ | fuel := fuel
      · omega
      obtain ⟨middle, hmiddle⟩ := hreads v (by simp) (level + 1) position
        (endsNumber_newline level (.char ']' :: rest)) hlevels.1 (show _ ≤ fuel by omega)
      obtain ⟨next, hnext⟩ := skipSpace_newline (l := .char ']') rfl level middle rest
      refine ⟨next + 1, ?_⟩
      rw [blockTail_singleton, items, hmiddle]
      simp only [hnext, Cursor.peek, head?_cons]
      rfl
    | cons w more =>
      have hlength := length_blockTail_cons ']' level (writeAt (level + 1) v)
        (writeAt (level + 1) w) (writeItems (level + 1) more)
      obtain ⟨l, tail, hpart, hl, -, -⟩ := (hplain w (by simp)).exists_first (level + 1)
      simp only [writeItems] at hfuel hlength ih ⊢
      obtain _ | fuel := fuel
      · omega
      obtain ⟨middle, hmiddle⟩ := hreads v (by simp) (level + 1) position
        (endsNumber_char (c := ',') (by decide) (newline (level + 1) ++ (blockTail ']' level
          (writeAt (level + 1) w :: writeItems (level + 1) more) ++ rest)))
        hlevels.1 (show _ ≤ fuel by omega)
      obtain ⟨start, hstart⟩ := skipSpace_blockTail ']' level hpart hl
        (writeItems (level + 1) more) rest (middle + 1)
      obtain ⟨next, hnext⟩ := ih (by simp) (fun v hv => hplain v (mem_cons_of_mem _ hv))
        (fun v hv => hreads v (mem_cons_of_mem _ hv)) hlevels.2 (show _ ≤ fuel + 1 by omega)
        start
      refine ⟨next, ?_⟩
      rw [blockTail_cons, items, hmiddle]
      simp only [skipSpace_cons (show isSpace (.char ',') = false from rfl),
        Cursor.peek, head?_cons, Cursor.drop, drop_one, tail_cons, hstart, hnext]
      rfl

/-- A member is read: its key, the colon, and its value. The letter after it decides how it goes
on. -/
theorem member_write (level : Nat) {m : Text × Json} (hplain : IsPlain m.2) (hreads : Reads m.2)
    (hlevels : m.2.levels ≤ levels)
    (hfuel : 2 * (writeString m.1 ++ ": " ++ writeAt level m.2).length ≤ fuel) (done : Members)
    (position : Nat) (hrest : EndsNumber rest) :
    ∃ next, ∀ {start l tail}, skipSpace ⟨next, rest⟩ = ⟨start, l :: tail⟩ →
      (l = .char '\x7d' → members levels (fuel + 1) done
          ⟨position, writeString m.1 ++ ": " ++ writeAt level m.2 ++ rest⟩ =
        .ok (done.put (joinHalves m.1) m.2.joined, ⟨start + 1, tail⟩)) ∧
      (l = .char ',' → members levels (fuel + 1) done
          ⟨position, writeString m.1 ++ ": " ++ writeAt level m.2 ++ rest⟩ =
        members levels fuel (done.put (joinHalves m.1) m.2.joined)
          (skipSpace ⟨start + 1, tail⟩)) := by
  obtain ⟨l, tail, hfirst, hl, -, -⟩ := hplain.exists_first level
  simp only [length_append, length_writeString] at hfuel
  obtain ⟨colon, hcolon⟩ := string_write m.1
    (show (m.1.flatMap writeLetter).length < fuel by omega) (position + 1)
    (": " ++ (writeAt level m.2 ++ rest))
  obtain ⟨next, hnext⟩ := hreads level (colon + 2) hrest hlevels (show _ ≤ fuel by omega)
  have hspace : skipSpace ⟨colon + 1, .char ' ' :: (writeAt level m.2 ++ rest)⟩ =
      ⟨colon + 2, writeAt level m.2 ++ rest⟩ := by
    rw [hfirst]
    exact skipSpace_append [.char ' '] (by simp [isSpace]) hl (colon + 1)
  have hsplit : (": " : Text) ++ (writeAt level m.2 ++ rest) =
      .char ':' :: .char ' ' :: (writeAt level m.2 ++ rest) := rfl
  rw [hsplit] at hcolon
  refine ⟨next, fun {start l tail} hafter => ?_⟩
  rw [append_assoc, append_assoc, writeString_append, hsplit, members]
  simp only [Cursor.peek, head?_cons, ne_eq, not_true_eq_false, if_false, Cursor.drop,
    drop_one, tail_cons, hcolon, hspace, hnext, hafter,
    skipSpace_cons (show isSpace (.char ':') = false from rfl)]
  constructor
  · rintro rfl
    rfl
  · rintro rfl
    rfl

theorem members_write (level : Nat) (hne : ms ≠ [])
    (hplain : ∀ m ∈ ms, IsPlain m.2) (hreads : ∀ m ∈ ms, Reads m.2)
    (hlevels : memberLevels ms ≤ levels)
    (hfuel : 2 * (blockTail '\x7d' level (writeMembers (level + 1) ms)).length ≤ fuel + 1)
    (done : Members) (hkeys : (done.map (·.1) ++ ms.map fun m => joinHalves m.1).Nodup)
    (position : Nat) (rest : Text) :
    ∃ next, members levels fuel done
        ⟨position, blockTail '\x7d' level (writeMembers (level + 1) ms) ++ rest⟩ =
      .ok (done ++ joinedMembers ms, ⟨next, rest⟩) := by
  induction ms generalizing fuel position done with
  | nil => exact absurd rfl hne
  | cons m more ih =>
    have hnew : joinHalves m.1 ∉ done.map (·.1) := by
      intro hmem
      exact (nodup_append.mp hkeys).2.2 _ hmem _ (by simp) rfl
    rw [memberLevels, Nat.max_le] at hlevels
    cases more with
    | nil =>
      have hlength := length_blockTail_singleton '\x7d' level
        (writeString m.1 ++ ": " ++ writeAt (level + 1) m.2)
      simp only [writeMembers] at hfuel hlength ⊢
      obtain _ | fuel := fuel
      · omega
      obtain ⟨middle, hmiddle⟩ := member_write (level + 1) (hplain m (by simp))
        (hreads m (by simp)) hlevels.1 (show _ ≤ fuel by omega) done position
        (endsNumber_newline level (.char '\x7d' :: rest))
      obtain ⟨next, hnext⟩ := skipSpace_newline (l := .char '\x7d') rfl level middle rest
      refine ⟨next + 1, ?_⟩
      rw [blockTail_singleton, (hmiddle hnext).1 rfl, Members.put_of_not_mem hnew]
      rfl
    | cons m' more =>
      have hlength := length_blockTail_cons '\x7d' level
        (writeString m.1 ++ ": " ++ writeAt (level + 1) m.2)
        (writeString m'.1 ++ ": " ++ writeAt (level + 1) m'.2) (writeMembers (level + 1) more)
      simp only [writeMembers] at hfuel hlength ih ⊢
      obtain _ | fuel := fuel
      · omega
      obtain ⟨middle, hmiddle⟩ := member_write (level + 1) (hplain m (by simp))
        (hreads m (by simp)) hlevels.1 (show _ ≤ fuel by omega) done position
        (endsNumber_char (c := ',') (by decide) (newline (level + 1) ++ (blockTail '\x7d' level
          ((writeString m'.1 ++ ": " ++ writeAt (level + 1) m'.2) ::
            writeMembers (level + 1) more) ++ rest)))
      obtain ⟨start, hstart⟩ := skipSpace_blockTail '\x7d' level
        (append_assoc (writeString m'.1) ": " (writeAt (level + 1) m'.2) ▸
          writeString_append m'.1 (": " ++ writeAt (level + 1) m'.2)) rfl
        (writeMembers (level + 1) more) rest (middle + 1)
      have hrest : ((done ++ [(joinHalves m.1, m.2.joined)]).map (·.1) ++
          (m' :: more).map fun m => joinHalves m.1).Nodup := by
        simpa [append_assoc] using hkeys
      obtain ⟨next, hnext⟩ := ih (by simp) (fun m hm => hplain m (mem_cons_of_mem _ hm))
        (fun m hm => hreads m (mem_cons_of_mem _ hm)) hlevels.2 (show _ ≤ fuel + 1 by omega)
        _ hrest start
      rw [blockTail_cons, (hmiddle (skipSpace_cons rfl _ _)).2 rfl, Members.put_of_not_mem hnew,
        hstart, hnext]
      simp [joinedMembers]

theorem length_writeBlock (opening closing : Char) (level : Nat) (hne : parts ≠ []) :
    (blockTail closing level parts).length + 2 ≤
      (writeBlock opening closing level parts).length := by
  have h := congrArg List.length (writeBlock_append opening closing level hne [])
  simp only [append_nil, length_append, newline, length_cons] at h
  omega

theorem reads_arr (hplain : ∀ v ∈ vs, IsPlain v) (hreads : ∀ v ∈ vs, Reads v) :
    Reads (.arr vs) := by
  intro level levels fuel position rest _ hlevels hfuel
  rw [Json.levels] at hlevels
  obtain _ | levels := levels
  · omega
  cases vs with
  | nil =>
    have hlength : (writeAt level (.arr [])).length = 2 := rfl
    obtain _ | fuel := fuel
    · omega
    exact ⟨position + 2, rfl⟩
  | cons v more =>
    have hne : writeItems (level + 1) (v :: more) ≠ [] := by simp [writeItems]
    have hlength := length_writeBlock '[' ']' level hne
    rw [writeAt] at hfuel
    obtain _ | fuel := fuel
    · omega
    obtain ⟨l, tail, hpart, hl, hclosing, -⟩ := (hplain v (by simp)).exists_first (level + 1)
    obtain ⟨start, hstart⟩ := skipSpace_blockTail ']' level hpart hl
      (writeItems (level + 1) more) rest (position + 1)
    obtain ⟨next, hnext⟩ := items_write level (cons_ne_nil v more) hplain hreads
      (show _ ≤ levels by omega) (show _ ≤ fuel + 1 by omega) start rest
    have hpeek : (blockTail ']' level (writeItems (level + 1) (v :: more)) ++ rest).head? ≠
        some (.char ']') := by
      obtain ⟨after, hafter⟩ := exists_blockTail ']' level hpart (writeItems (level + 1) more) rest
      rw [writeItems, hafter]
      simpa using hclosing
    refine ⟨next, ?_⟩
    rw [writeAt, writeBlock_append _ _ _ hne, value]
    simp only [writeItems] at hnext hstart hpeek ⊢
    simp only [Cursor.drop, drop_one, tail_cons, hstart, Nat.add_one_ne_zero, if_false,
      Cursor.peek, hpeek, Nat.add_sub_cancel, hnext]
    rfl

theorem reads_obj (hkeys : (ms.map fun m => joinHalves m.1).Nodup)
    (hplain : ∀ m ∈ ms, IsPlain m.2) (hreads : ∀ m ∈ ms, Reads m.2) : Reads (.obj ms) := by
  intro level levels fuel position rest _ hlevels hfuel
  rw [Json.levels] at hlevels
  obtain _ | levels := levels
  · omega
  cases ms with
  | nil =>
    have hlength : (writeAt level (.obj [])).length = 2 := rfl
    obtain _ | fuel := fuel
    · omega
    exact ⟨position + 2, rfl⟩
  | cons m more =>
    have hne : writeMembers (level + 1) (m :: more) ≠ [] := by simp [writeMembers]
    have hlength := length_writeBlock '\x7b' '\x7d' level hne
    rw [writeAt] at hfuel
    obtain _ | fuel := fuel
    · omega
    have hpart := append_assoc (writeString m.1) ": " (writeAt (level + 1) m.2) ▸
      writeString_append m.1 (": " ++ writeAt (level + 1) m.2)
    obtain ⟨start, hstart⟩ := skipSpace_blockTail '\x7d' level hpart rfl
      (writeMembers (level + 1) more) rest (position + 1)
    obtain ⟨next, hnext⟩ := members_write level (cons_ne_nil m more) hplain hreads
      (show _ ≤ levels by omega) (show _ ≤ fuel + 1 by omega) [] (by simpa using hkeys)
      start rest
    have hpeek : (blockTail '\x7d' level (writeMembers (level + 1) (m :: more)) ++ rest).head? ≠
        some (.char '\x7d') := by
      obtain ⟨after, hafter⟩ :=
        exists_blockTail '\x7d' level hpart (writeMembers (level + 1) more) rest
      rw [writeMembers, hafter]
      simp
    refine ⟨next, ?_⟩
    rw [writeAt, writeBlock_append _ _ _ hne, value]
    simp only [writeMembers] at hnext hstart hpeek ⊢
    simp only [Cursor.drop, drop_one, tail_cons, hstart, Nat.add_one_ne_zero, if_false,
      Cursor.peek, hpeek, Nat.add_sub_cancel, hnext]
    rfl

theorem IsPlain.reads (h : IsPlain v) : Reads v := by
  induction h with
  | null => exact reads_null
  | bool b => exact reads_bool b
  | int h => exact reads_int h
  | real h => exact reads_real h
  | str s => exact reads_str s
  | arr hplain ih => exact reads_arr hplain ih
  | obj hkeys hplain ih => exact reads_obj hkeys hplain ih

/-- A document is read as it was written, but for its texts: two halves of a character that stand
side by side are read as the character. -/
theorem read_write (h : IsPlain v) (hlevels : v.levels ≤ maxLevels) :
    read (write v) = .ok v.joined := by
  obtain ⟨l, tail, hfirst, hl, -, hmark⟩ := h.exists_first 0
  have hpeek : (write v).head? ≠ some (.char '\ufeff') := by
    rw [write, hfirst]
    simpa using hmark
  have hstart : skipSpace ⟨0, write v⟩ = ⟨0, write v⟩ := by
    rw [write, hfirst]
    exact skipSpace_cons hl 0 _
  have hlength : (writeAt 0 v).length ≤ (write v).length := by simp [write]
  have hend : EndsNumber "\n" := endsNumber_newline 0 []
  obtain ⟨next, hnext⟩ := h.reads 0 0 hend hlevels (show _ ≤ 2 * (write v).length + 1 by omega)
  unfold read
  simp only [Cursor.peek, hpeek, if_false, hstart]
  rw [write] at hnext ⊢
  rw [hnext]
  rfl

/-- A letter that stands for itself in any text file. -/
def IsFileLetter (l : Letter) : Prop := l = .char '\n' ∨ (0x20 ≤ l.code ∧ l.code < 0x7F)

private theorem isFileLetter_of_all
    (h : text.all (fun l => decide (0x20 ≤ l.code ∧ l.code < 0x7F)) = true) :
    ∀ l ∈ text, IsFileLetter l := fun l hl =>
  .inr (of_decide_eq_true (all_eq_true.mp h l hl))

private theorem isFileLetter_hexDigits (width n : Nat) :
    ∀ c ∈ hexDigits width n, IsFileLetter (.char c) := by
  induction width generalizing n with
  | zero => simp [hexDigits]
  | succ width ih =>
    intro c hc
    rcases mem_append.mp hc with hc | hc
    · exact ih _ c hc
    · rw [mem_singleton.mp hc]
      have hlt : n % 16 < 16 := Nat.mod_lt _ (by decide)
      interval_cases n % 16 <;> exact .inr (by decide)

theorem isFileLetter_unicodeEscape (n : Nat) : ∀ l ∈ unicodeEscape n, IsFileLetter l := by
  intro l hl
  rcases mem_append.mp hl with hl | hl
  · exact isFileLetter_of_all (by decide) l hl
  · obtain ⟨c, hc, rfl⟩ := mem_map.mp hl
    exact isFileLetter_hexDigits 4 n c hc

theorem isFileLetter_writeLetter (l : Letter) : ∀ x ∈ writeLetter l, IsFileLetter x := by
  have hspelling := spelling_writeLetter l
  generalize writeLetter l = written at hspelling ⊢
  intro x hx
  cases hspelling with
  | plain _ _ hlow hhigh =>
    rw [mem_singleton.mp hx]
    exact .inr ⟨hlow, hhigh⟩
  | short _ _ _ hhigh hlow =>
    rcases mem_cons.mp hx with rfl | hx
    · exact .inr (by decide)
    · rw [mem_singleton.mp hx]
      exact .inr ⟨hlow, hhigh⟩
  | number _ => exact isFileLetter_unicodeEscape _ x hx
  | pair _ _ _ =>
    rcases mem_append.mp hx with hx | hx
    · exact isFileLetter_unicodeEscape _ x hx
    · exact isFileLetter_unicodeEscape _ x hx

theorem isFileLetter_writeString (s : Text) : ∀ l ∈ writeString s, IsFileLetter l := by
  intro l hl
  rw [writeString, mem_append, mem_append] at hl
  rcases hl with (hl | hl) | hl
  · exact isFileLetter_of_all (by decide) l hl
  · obtain ⟨x, -, hx⟩ := mem_flatMap.mp hl
    exact isFileLetter_writeLetter x l hx
  · exact isFileLetter_of_all (by decide) l hl

private theorem isFileLetter_newline (level : Nat) : ∀ l ∈ newline level, IsFileLetter l := by
  intro l hl
  rcases mem_cons.mp hl with rfl | hl
  · exact .inl rfl
  · rw [eq_of_mem_replicate hl]
    exact .inr (by decide)

private theorem isFileLetter_writeBlock (hopening : IsFileLetter (.char opening))
    (hclosing : IsFileLetter (.char closing)) (level : Nat)
    (hparts : ∀ part ∈ parts, ∀ l ∈ part, IsFileLetter l) :
    ∀ l ∈ writeBlock opening closing level parts, IsFileLetter l := by
  intro l hl
  unfold writeBlock at hl
  split at hl
  · rcases mem_cons.mp hl with rfl | hl
    · exact hopening
    · rw [mem_singleton.mp hl]
      exact hclosing
  · simp only [mem_append, mem_cons, not_mem_nil, or_false] at hl
    rcases hl with (((rfl | hl) | hl) | hl) | rfl
    · exact hopening
    · exact isFileLetter_newline _ l hl
    · rcases mem_intercalate hl with hl | ⟨part, hpart, hl⟩
      · rcases mem_cons.mp hl with rfl | hl
        · exact .inr (by decide)
        · exact isFileLetter_newline _ l hl
      · exact hparts part hpart l hl
    · exact isFileLetter_newline _ l hl
    · exact hclosing

private theorem writeItems_eq_map : writeItems level vs = vs.map (writeAt level) := by
  induction vs with
  | nil => rfl
  | cons v more ih => rw [writeItems, ih, map_cons]

private theorem writeMembers_eq_map : writeMembers level ms =
    ms.map fun m => writeString m.1 ++ ": " ++ writeAt level m.2 := by
  induction ms with
  | nil => rfl
  | cons m more ih => rw [writeMembers, ih, map_cons]

private theorem isFileLetter_signed (n : Numeral) (negative : Bool) :
    ∀ l ∈ ofChars (signed negative n.chars), IsFileLetter l := by
  intro l hl
  obtain ⟨c, hc, rfl⟩ := mem_map.mp hl
  have hnumber : isNumberChar c = true := isNumberChar_signed n negative c hc
  simp only [isNumberChar, Bool.or_eq_true] at hnumber
  rcases hnumber with hdigit | hsign
  · have hmem := mem_digits_of_isDigit hdigit
    fin_cases hmem <;> exact .inr (by decide)
  · have hmem : c ∈ ['+', '-', '.', 'e', 'E'] := by simpa using hsign
    fin_cases hmem <;> exact .inr (by decide)

theorem IsPlain.isFileLetter (h : IsPlain v) (level : Nat) :
    ∀ l ∈ writeAt level v, IsFileLetter l := by
  induction h generalizing level with
  | null => exact isFileLetter_of_all rfl
  | bool b => cases b <;> exact isFileLetter_of_all rfl
  | int _ =>
    rw [writeAt_int]
    exact isFileLetter_signed _ _
  | @real x h =>
    cases x with
    | nan => exact isFileLetter_of_all rfl
    | infinite s => cases s <;> exact isFileLetter_of_all rfl
    | finite s m e =>
      obtain ⟨n, htext, -, -⟩ := exists_writeAt_real h level s
      rw [htext]
      exact isFileLetter_signed n s
  | str s => exact isFileLetter_writeString s
  | arr _ ih =>
    refine isFileLetter_writeBlock (.inr (by decide)) (.inr (by decide)) level ?_
    intro part hpart
    rw [writeItems_eq_map] at hpart
    obtain ⟨v, hv, rfl⟩ := mem_map.mp hpart
    exact ih v hv (level + 1)
  | obj _ _ ih =>
    refine isFileLetter_writeBlock (.inr (by decide)) (.inr (by decide)) level ?_
    intro part hpart l hl
    rw [writeMembers_eq_map] at hpart
    obtain ⟨m, hm, rfl⟩ := mem_map.mp hpart
    rw [mem_append, mem_append] at hl
    rcases hl with (hl | hl) | hl
    · exact isFileLetter_writeString m.1 l hl
    · exact isFileLetter_of_all (by decide) l hl
    · exact ih m hm (level + 1) l hl

theorem exists_bytes_of_isFileLetter (h : ∀ l ∈ text, IsFileLetter l) :
    ∃ bytes, bytes? text = some bytes ∧ readText bytes = .ok text := by
  have hchars : ∃ cs, text = ofChars cs := by
    induction text with
    | nil => exact ⟨[], rfl⟩
    | cons l rest ih =>
      obtain ⟨cs, hrest⟩ := ih fun l hl => h l (mem_cons_of_mem _ hl)
      cases l with
      | half place =>
        rcases h _ mem_cons_self with hl | ⟨-, hl⟩
        · cases hl
        · have hcode : (Letter.half place).code = 0xD800 + place.val := rfl
          omega
      | char c => exact ⟨c :: cs, by rw [hrest]; rfl⟩
  have hreturn : .char '\r' ∉ text := by
    intro hmem
    rcases h _ hmem with hl | ⟨hl, -⟩
    · cases hl
    · exact absurd hl (by decide)
  obtain ⟨cs, rfl⟩ := hchars
  have hbytes : bytes? (ofChars cs) = some (String.ofList cs).toUTF8 := by
    rw [bytes?, Text.string?, chars?_ofChars]
    rfl
  refine ⟨_, hbytes, ?_⟩
  rw [readText_of_bytes? hbytes, newlines_of_not_mem hreturn]

end AgentConfig.Json
