import AgentConfig.Proofs.Json.RoundTrip
import Mathlib.Data.List.Chain

namespace AgentConfig

variable {v : Json} {cur next : Cursor} {rest text done : Text} {n levels : Nat}

theorem Letter.isSurrogate_char (c : Char) : Json.isHighSurrogate (Letter.char c).code = false ∧
    Json.isLowSurrogate (Letter.char c).code = false := by
  have hcode : (Letter.char c).code = c.val.toNat := rfl
  simp only [hcode, Json.isHighSurrogate, Json.isLowSurrogate, Bool.and_eq_false_iff,
    decide_eq_false_iff_not]
  rcases c.valid with h | h
  · omega
  · omega

theorem Letter.code_ofCode_half (hlow : 0xD800 ≤ n) (hhigh : n < 0xE000) :
    (Letter.ofCode n).code = n := by
  rw [Letter.ofCode, dif_pos ⟨hlow, hhigh⟩, Letter.code]
  exact Nat.add_sub_cancel' hlow

theorem Letter.isSurrogate_ofCode (n : Nat) :
    Json.isHighSurrogate (Letter.ofCode n).code = Json.isHighSurrogate n ∧
      Json.isLowSurrogate (Letter.ofCode n).code = Json.isLowSurrogate n := by
  by_cases hhalf : 0xD800 ≤ n ∧ n < 0xE000
  · simp [Letter.code_ofCode_half hhalf.1 hhalf.2]
  rw [Letter.ofCode, dif_neg hhalf, (isSurrogate_char _).1, (isSurrogate_char _).2, eq_comm,
    eq_comm (b := Json.isLowSurrogate n)]
  simp only [Json.isHighSurrogate, Json.isLowSurrogate, Bool.and_eq_false_iff,
    decide_eq_false_iff_not]
  omega

/-- A text of characters only, as a file holds it. -/
def Text.IsChars (text : Text) : Prop := ∀ l ∈ text, ∃ c, l = .char c

theorem Text.IsChars.of_suffix (h : text.IsChars) (hrest : rest <:+ text) :
    rest.IsChars := fun l hl => h l (hrest.subset hl)

theorem Text.isChars_ofChars (cs : List Char) : (Text.ofChars cs).IsChars := by
  intro l hl
  obtain ⟨c, -, rfl⟩ := List.mem_map.mp hl
  exact ⟨c, rfl⟩

namespace Json

/-- The letters do not join. -/
def StayApart (a b : Letter) : Prop :=
  isHighSurrogate a.code = true → isLowSurrogate b.code = false

/-- A text in which no two letters side by side are the halves of one character. -/
def IsJoined (s : Text) : Prop := s.IsChain StayApart

theorem IsJoined.joinHalves_eq {s : Text} (h : IsJoined s) : joinHalves s = s := by
  fun_induction joinHalves s with
  | case1 a b rest hpair ih =>
    have hapart := (List.isChain_cons_cons.mp h).1
    have ha : (Letter.half a).code = 0xD800 + a.val := rfl
    have hb : (Letter.half b).code = 0xD800 + b.val := rfl
    simp only [StayApart, ha, hb, isHighSurrogate, isLowSurrogate, Bool.and_eq_true,
      Bool.and_eq_false_iff, decide_eq_true_eq, decide_eq_false_iff_not] at hapart
    omega
  | case2 a b rest hpair ih => rw [ih h.tail]
  | case3 l rest hpair ih => rw [ih h.tail]
  | case4 => rfl

/-- A document as it is read from a text file. Its integers are not too long and its other numbers
are rounded, no halves are left to join in its texts, and the keys of an object are apart. -/
inductive IsReadable : Json → Prop
  | null : IsReadable .null
  | bool (b : Bool) : IsReadable (.bool b)
  | int {k : Int} (h : (Nat.toDigits 10 k.natAbs).length ≤ Literal.maxDigits) : IsReadable (.int k)
  | real {x : Binary64} (h : x.IsRounded) : IsReadable (.real x)
  | str {s : Text} (h : IsJoined s) : IsReadable (.str s)
  | arr {items : List Json} (h : ∀ v ∈ items, IsReadable v) : IsReadable (.arr items)
  | obj {members : Members} (hkeys : members.keys.Nodup) (hjoined : ∀ m ∈ members, IsJoined m.1)
    (h : ∀ m ∈ members, IsReadable m.2) : IsReadable (.obj members)

namespace IsReadable

theorem joined_eq {v : Json} (h : IsReadable v) : v.joined = v := by
  induction h with
  | null => rfl
  | bool b => rfl
  | int _ => rfl
  | real _ => rfl
  | str h => rw [joined, h.joinHalves_eq]
  | @arr items _ ih =>
    rw [joined, joinedItems_eq_map, List.map_congr_left ih, List.map_id']
  | @obj members _ hjoined _ ih =>
    have hsame : ∀ m ∈ members, (joinHalves m.1, m.2.joined) = m := fun m hm => by
      rw [(hjoined m hm).joinHalves_eq, ih m hm]
    rw [joined, joinedMembers_eq_map, List.map_congr_left hsame, List.map_id']

theorem isPlain {v : Json} (h : IsReadable v) : IsPlain v := by
  induction h with
  | null => exact .null
  | bool b => exact .bool b
  | int h => exact .int h
  | real h => exact .real h
  | str _ => exact .str _
  | arr _ ih => exact .arr ih
  | @obj members hkeys hjoined _ ih =>
    have hsame : (members.map fun m => joinHalves m.1) = members.keys :=
      List.map_congr_left fun m hm => (hjoined m hm).joinHalves_eq
    exact .obj (hsame ▸ hkeys) ih

theorem read_write {v : Json} (h : IsReadable v) (hlevels : v.levels ≤ maxLevels) :
    read (write v) = .ok v := by
  rw [Json.read_write h.isPlain hlevels, h.joined_eq]

end IsReadable

/-- What has been read of a string, last letter first, and what is left of the text: a half at the
end is not followed by its other half. -/
structure Pending (done rest : Text) : Prop where
  joined : IsJoined done.reverse
  next : ∀ l ∈ done.head?, isHighSurrogate l.code = true → secondUnit rest = .none

theorem Pending.push {after : Text} {l : Letter} (h : Pending done rest)
    (hlow : isLowSurrogate l.code = true → secondUnit rest ≠ .none)
    (hhigh : isHighSurrogate l.code = true → secondUnit after = .none) :
    Pending (l :: done) after where
  joined := by
    rw [IsJoined, List.reverse_cons, List.isChain_append]
    refine ⟨h.joined, List.isChain_singleton l, ?_⟩
    intro last hlast first hfirst hend
    obtain rfl : l = first := by simpa using hfirst
    rw [List.getLast?_reverse] at hlast
    by_contra hne
    exact hlow (Bool.eq_true_of_not_eq_false hne) (h.next last hlast hend)
  next := by
    rintro _ ⟨⟩
    exact hhigh

theorem Pending.push_char (h : Pending done rest) (c : Char) (after : Text) :
    Pending (.char c :: done) after := by
  refine h.push (fun hlow => ?_) (fun hhigh => ?_)
  · rw [(Letter.isSurrogate_char _).2] at hlow
    cases hlow
  · rw [(Letter.isSurrogate_char _).1] at hhigh
    cases hhigh

theorem unicodeUnit?_inv (h : unicodeUnit? text = some (n, rest)) : rest <:+ text ∧
      secondUnit (.char '\\' :: .char 'u' :: text) =
        if isLowSurrogate n then .unit n rest else .none := by
  unfold unicodeUnit? at h
  split at h
  · rename_i a b c d e tail
    obtain ⟨k, hk, heq⟩ := Option.map_eq_some_iff.mp h
    obtain ⟨rfl, rfl⟩ := Prod.mk.inj heq
    exact ⟨⟨[a, b, c, d], rfl⟩, by simp only [secondUnit, hk]⟩
  · cases h

theorem secondUnit_inv (h : secondUnit text = .unit n rest) : rest <:+ text := by
  unfold secondUnit at h
  split at h
  · rename_i a b c d e tail
    split at h
    · split at h
      · obtain ⟨-, rfl⟩ := SecondUnit.unit.inj h
        exact ⟨[.char '\\', .char 'u', a, b, c, d], rfl⟩
      · cases h
    · cases h
  · cases h

section Escape

variable {after : Text} (h : Pending done (.char '\\' :: .char 'u' :: text))
  (hunit : unicodeUnit? text = some (n, after))
include h

/-- An escape that starts no pair is a letter; it is no second half, or its first half would have
taken it. -/
theorem Pending.push_unit (hunit : unicodeUnit? text = some (n, after))
    (halone : isHighSurrogate n = true → secondUnit after = .none) :
    Pending (.ofCode n :: done) after := by
  refine h.push (fun hlow => ?_) (fun hhigh => ?_)
  · rw [(Letter.isSurrogate_ofCode _).2] at hlow
    rw [(unicodeUnit?_inv hunit).2, hlow]
    simp
  · rw [(Letter.isSurrogate_ofCode _).1] at hhigh
    exact halone hhigh

theorem Pending.push_pair (high low : Nat) (tail : Text) :
    Pending (.ofCode (0x10000 + (high - 0xD800) * 0x400 + (low - 0xDC00)) :: done) tail := by
  have hbeyond : ∀ k, 0x10000 ≤ k → isHighSurrogate k = false ∧ isLowSurrogate k = false := by
    simp only [isHighSurrogate, isLowSurrogate, Bool.and_eq_false_iff, decide_eq_false_iff_not]
    omega
  have hcode := hbeyond (0x10000 + (high - 0xD800) * 0x400 + (low - 0xDC00)) (by omega)
  refine h.push (fun hlow => ?_) (fun hhigh => ?_)
  · rw [(Letter.isSurrogate_ofCode _).2, hcode.2] at hlow
    cases hlow
  · rw [(Letter.isSurrogate_ofCode _).1, hcode.1] at hhigh
    cases hhigh

end Escape

/-- Each step of the reader leaves a suffix of the text, before which the letters read so far are
pending. -/
theorem stringBody_isJoined {start fuel : Nat} {s : Text}
    (h : stringBody start fuel done cur = .ok (s, next)) (hchars : cur.rest.IsChars)
    (hdone : Pending done cur.rest) : IsJoined s ∧ next.rest <:+ cur.rest := by
  induction fuel generalizing done cur with
  | zero => cases h
  | succ fuel ih =>
    have hstep {l : Letter} {position : Nat} {rest : Text}
        (h : stringBody start fuel (l :: done) ⟨position, rest⟩ = .ok (s, next))
        (hpending : Pending (l :: done) rest) (hsuffix : rest <:+ cur.rest) :
        IsJoined s ∧ next.rest <:+ cur.rest := by
      have hrest := ih h (hchars.of_suffix hsuffix) hpending
      exact ⟨hrest.1, hrest.2.trans hsuffix⟩
    rw [stringBody] at h
    split at h
    · cases h
    · rename_i rest hrest
      obtain ⟨rfl, rfl⟩ := Prod.mk.inj (Except.ok.inj h)
      rw [hrest]
      exact ⟨hdone.joined, List.suffix_cons _ _⟩
    · cases h
    · rename_i text hrest
      split at h
      · cases h
      rename_i n after hunit
      have hsuffix : after <:+ cur.rest := by
        rw [hrest]
        exact (unicodeUnit?_inv hunit).1.trans ⟨[.char '\\', .char 'u'], rfl⟩
      rw [hrest] at hdone
      split at h
      · split at h
        · cases h
        · exact hstep h (hdone.push_unit hunit fun _ => ‹_›) hsuffix
        · rename_i hpair
          exact hstep h (hdone.push_pair _ _ _) ((secondUnit_inv hpair).trans hsuffix)
      · exact hstep h (hdone.push_unit hunit fun hhigh => absurd hhigh ‹_›) hsuffix
    · rename_i l rest _ hrest
      split at h
      · refine hstep h (hdone.push_char _ _) ?_
        rw [hrest]
        exact ⟨[.char '\\', l], rfl⟩
      · cases h
    · rename_i l rest _ _ _ _ hrest
      split at h
      · cases h
      obtain ⟨c, rfl⟩ := hchars l (by rw [hrest]; exact List.mem_cons_self)
      refine hstep h (hdone.push_char c _) ?_
      rw [hrest]
      exact List.suffix_cons _ _

theorem string_isJoined {fuel : Nat} {s : Text} (h : string fuel cur = .ok (s, next))
    (hchars : cur.rest.IsChars) :
    IsJoined s ∧ next.rest <:+ cur.rest :=
  stringBody_isJoined h hchars ⟨List.isChain_nil, by simp⟩

theorem digit?_lt {base : Nat} {c : Char} {d : Nat} (h : Literal.digit? base c = some d) :
    d < base := by
  unfold Literal.digit? at h
  extract_lets value at h
  split at h
  · rw [← Option.some.inj h]
    assumption
  · cases h

theorem digits?_lt {cs : List Char} (h : Literal.digits? 10 cs = some n) : n < 10 ^ cs.length := by
  have hfold : ∀ (cs : List Char) (start : Nat),
      cs.foldlM (fun n c => (Literal.digit? 10 c).map (10 * n + ·)) start = some n →
        n < (start + 1) * 10 ^ cs.length := by
    intro cs
    induction cs with
    | nil =>
      intro start h
      obtain rfl : start = n := Option.some.inj h
      simp
    | cons c rest ih =>
      intro start h
      obtain ⟨m, hm, hrest⟩ := Option.bind_eq_some_iff.mp h
      obtain ⟨d, hd, rfl⟩ := Option.map_eq_some_iff.mp hm
      have hlt := digit?_lt hd
      calc n < (10 * start + d + 1) * 10 ^ rest.length := ih _ hrest
        _ ≤ (10 * (start + 1)) * 10 ^ rest.length := Nat.mul_le_mul_right _ (by omega)
        _ = (start + 1) * 10 ^ (c :: rest).length := by
          rw [List.length_cons, pow_succ]
          ring
  unfold Literal.digits? at h
  split at h
  · cases h
  · simpa using hfold cs 0 h

theorem isRounded_of_decimal? {negative : Bool} {cs : List Char} {x : Binary64}
    (h : Literal.decimal? negative cs = some x) : x.IsRounded := by
  obtain ⟨⟨digits, places⟩, -, h⟩ := Option.bind_eq_some_iff.mp h
  obtain ⟨n, -, h⟩ := Option.bind_eq_some_iff.mp h
  have hvalue : ∃ power : Int, some (Binary64.ofDecimal negative n (power - places)) = some x := by
    split at h
    · exact ⟨0, h⟩
    · obtain ⟨power, -, h⟩ := Option.bind_eq_some_iff.mp h
      exact ⟨power, h⟩
  obtain ⟨power, hx⟩ := hvalue
  rw [← Option.some.inj hx, Binary64.ofDecimal_eq]
  exact Binary64.isRounded_nearest negative (by positivity)

theorem number_isReadable (h : number cur = .ok (v, next)) :
    IsReadable v ∧ v.levels = 0 ∧ next.rest <:+ cur.rest := by
  unfold number at h
  extract_lets run negative unsigned whole fraction exponent chars after at h
  split at h
  · cases h
  split at h
  · split at h
    · cases h
    rename_i hlength
    split at h
    · rename_i n hdigits
      obtain ⟨rfl, rfl⟩ := Prod.mk.inj (Except.ok.inj h)
      refine ⟨.int ?_, rfl, List.drop_suffix _ _⟩
      have hn : (if negative then -(n : Int) else n).natAbs = n := by split <;> simp
      have hlt : n < 10 ^ Literal.maxDigits := lt_of_lt_of_le (digits?_lt hdigits)
        (Nat.pow_le_pow_right (by decide) (not_lt.mp hlength))
      rw [hn]
      exact (Nat.length_toDigits_le_iff (by decide) (by decide)).mpr hlt
    · cases h
  · split at h
    · rename_i hdecimal
      obtain ⟨rfl, rfl⟩ := Prod.mk.inj (Except.ok.inj h)
      exact ⟨.real (isRounded_of_decimal? hdecimal), rfl, List.drop_suffix _ _⟩
    · cases h

theorem wordOrNumber_isReadable (h : wordOrNumber cur = .ok (v, next)) :
    IsReadable v ∧ v.levels = 0 ∧ next.rest <:+ cur.rest := by
  unfold wordOrNumber at h
  split at h
  · rename_i word value hfind
    obtain ⟨rfl, rfl⟩ := Prod.mk.inj (Except.ok.inj h)
    have hmem := List.mem_of_find?_eq_some hfind
    simp only [words, List.mem_cons, Prod.mk.injEq, List.not_mem_nil, or_false] at hmem
    rcases hmem with ⟨-, rfl⟩ | ⟨-, rfl⟩ | ⟨-, rfl⟩ | ⟨-, rfl⟩ | ⟨-, rfl⟩ | ⟨-, rfl⟩
    · exact ⟨.null, rfl, List.drop_suffix _ _⟩
    · exact ⟨.bool true, rfl, List.drop_suffix _ _⟩
    · exact ⟨.bool false, rfl, List.drop_suffix _ _⟩
    all_goals exact ⟨.real trivial, rfl, List.drop_suffix _ _⟩
  · exact number_isReadable h

def IsReadableIn (levels : Nat) (v : Json) : Prop := IsReadable v ∧ v.levels ≤ levels

/-- Members of a readable object, whose values have so many levels. -/
structure AreReadable (levels : Nat) (members : Members) : Prop where
  keys : members.keys.Nodup
  joined : ∀ m ∈ members, IsJoined m.1
  values : ∀ m ∈ members, IsReadableIn levels m.2

theorem AreReadable.put {members : Members} (h : AreReadable levels members) {key : Text}
    (hkey : IsJoined key) (hv : IsReadableIn levels v) :
    AreReadable levels (members.put key v) where
  keys := Members.nodup_keys_put h.keys
  joined m hm := by
    rcases Members.mem_put hm with rfl | hm
    · exact hkey
    · exact h.joined m hm
  values m hm := by
    rcases Members.mem_put hm with rfl | hm
    · exact hv
    · exact h.values m hm

theorem itemLevels_le_iff {items : List Json} :
    itemLevels items ≤ n ↔ ∀ v ∈ items, v.levels ≤ n := by
  induction items with
  | nil => simp [itemLevels]
  | cons v rest ih => simp [itemLevels, ih]

theorem memberLevels_le_iff {members : Members} :
    memberLevels members ≤ n ↔ ∀ m ∈ members, m.2.levels ≤ n := by
  induction members with
  | nil => simp [memberLevels]
  | cons m rest ih => simp [memberLevels, ih]

theorem areReadable_iff {members : Members} :
    AreReadable levels members ↔ IsReadableIn (levels + 1) (.obj members) := by
  constructor
  · intro h
    refine ⟨.obj h.keys h.joined fun m hm => (h.values m hm).1, ?_⟩
    rw [Json.levels, Nat.add_le_add_iff_right, memberLevels_le_iff]
    exact fun m hm => (h.values m hm).2
  · rintro ⟨hreadable, hlevels⟩
    rw [Json.levels, Nat.add_le_add_iff_right, memberLevels_le_iff] at hlevels
    cases hreadable with
    | obj hkeys hjoined hvalues => exact ⟨hkeys, hjoined, fun m hm => ⟨hvalues m hm, hlevels m hm⟩⟩

theorem isReadableIn_arr {items : List Json} (h : ∀ v ∈ items, IsReadableIn levels v) :
    IsReadableIn (levels + 1) (.arr items) := by
  refine ⟨.arr fun v hv => (h v hv).1, ?_⟩
  rw [Json.levels, Nat.add_le_add_iff_right, itemLevels_le_iff]
  exact fun v hv => (h v hv).2

theorem Cursor.skipSpace_suffix (cur : Cursor) : cur.skipSpace.rest <:+ cur.rest :=
  List.drop_suffix _ _

theorem Cursor.drop_suffix (n : Nat) (cur : Cursor) : (cur.drop n).rest <:+ cur.rest :=
  List.drop_suffix _ _

/-- What the reader makes of a text of characters, by the fuel it has left. -/
structure ReadsReadable (fuel : Nat) : Prop where
  value {levels : Nat} {cur next : Cursor} {v : Json} :
    Json.value levels fuel cur = .ok (v, next) → cur.rest.IsChars →
      IsReadableIn levels v ∧ next.rest <:+ cur.rest
  items {levels : Nat} {cur next : Cursor} {vs : List Json} :
    Json.items levels fuel cur = .ok (vs, next) → cur.rest.IsChars →
      (∀ v ∈ vs, IsReadableIn levels v) ∧ next.rest <:+ cur.rest
  members {levels : Nat} {done ms : Members} {cur next : Cursor} :
    Json.members levels fuel done cur = .ok (ms, next) → cur.rest.IsChars →
      AreReadable levels done → AreReadable levels ms ∧ next.rest <:+ cur.rest

section Step

variable {fuel : Nat} (ih : ReadsReadable fuel) (hchars : cur.rest.IsChars)
include ih hchars

theorem value_isReadable {v : Json} (h : value levels (fuel + 1) cur = .ok (v, next)) :
    IsReadableIn levels v ∧ next.rest <:+ cur.rest := by
  have hopened : (cur.drop 1).skipSpace.rest <:+ cur.rest :=
    (cur.drop 1).skipSpace_suffix.trans (cur.drop_suffix 1)
  have hclosed : ((cur.drop 1).skipSpace.drop 1).rest <:+ cur.rest :=
    (Cursor.drop_suffix 1 _).trans hopened
  rw [value] at h
  split at h
  · cases h
  · obtain ⟨⟨s, after⟩, hstring, heq⟩ := Outcome.map_eq_ok.mp h
    obtain ⟨rfl, rfl⟩ := Prod.mk.inj heq
    have hread := string_isJoined hstring (hchars.of_suffix (cur.drop_suffix 1))
    exact ⟨⟨.str hread.1, Nat.zero_le _⟩, hread.2.trans (cur.drop_suffix 1)⟩
  · extract_lets start at h
    split at h
    · cases h
    obtain ⟨levels, rfl⟩ := Nat.exists_eq_add_one_of_ne_zero ‹levels ≠ 0›
    split at h
    · obtain ⟨rfl, rfl⟩ := Prod.mk.inj (Except.ok.inj h)
      exact ⟨isReadableIn_arr (by simp), hclosed⟩
    obtain ⟨⟨vs, after⟩, hitems, heq⟩ := Outcome.map_eq_ok.mp h
    obtain ⟨rfl, rfl⟩ := Prod.mk.inj heq
    have hread := ih.items hitems (hchars.of_suffix hopened)
    exact ⟨isReadableIn_arr hread.1, hread.2.trans hopened⟩
  · extract_lets start at h
    split at h
    · cases h
    obtain ⟨levels, rfl⟩ := Nat.exists_eq_add_one_of_ne_zero ‹levels ≠ 0›
    have hnone : AreReadable levels [] := ⟨List.nodup_nil, by simp, by simp⟩
    split at h
    · obtain ⟨rfl, rfl⟩ := Prod.mk.inj (Except.ok.inj h)
      exact ⟨areReadable_iff.mp hnone, hclosed⟩
    obtain ⟨⟨ms, after⟩, hmembers, heq⟩ := Outcome.map_eq_ok.mp h
    obtain ⟨rfl, rfl⟩ := Prod.mk.inj heq
    have hread := ih.members hmembers (hchars.of_suffix hopened) hnone
    exact ⟨areReadable_iff.mp hread.1, hread.2.trans hopened⟩
  · obtain ⟨hread, hlevels, hsuffix⟩ := wordOrNumber_isReadable h
    exact ⟨⟨hread, by omega⟩, hsuffix⟩

theorem items_isReadable {vs : List Json} (h : items levels (fuel + 1) cur = .ok (vs, next)) :
    (∀ v ∈ vs, IsReadableIn levels v) ∧ next.rest <:+ cur.rest := by
  rw [items] at h
  split at h
  · cases h
  rename_i v after hvalue
  obtain ⟨hv, hafter⟩ := ih.value hvalue hchars
  have hsettled : after.skipSpace.rest <:+ cur.rest := after.skipSpace_suffix.trans hafter
  have hnext := (Cursor.drop_suffix 1 after.skipSpace).trans hsettled
  extract_lets settled at h
  split at h
  · obtain ⟨rfl, rfl⟩ := Prod.mk.inj (Except.ok.inj h)
    exact ⟨by simpa using hv, hnext⟩
  · obtain ⟨⟨more, last⟩, hmore, heq⟩ := Outcome.map_eq_ok.mp h
    obtain ⟨rfl, rfl⟩ := Prod.mk.inj heq
    have hstart := (Cursor.skipSpace_suffix (settled.drop 1)).trans hnext
    obtain ⟨hvs, hlast⟩ := ih.items hmore (hchars.of_suffix hstart)
    exact ⟨List.forall_mem_cons.mpr ⟨hv, hvs⟩, hlast.trans hstart⟩
  · cases h

theorem members_isReadable {done ms : Members}
    (h : members levels (fuel + 1) done cur = .ok (ms, next)) (hdone : AreReadable levels done) :
    AreReadable levels ms ∧ next.rest <:+ cur.rest := by
  rw [members] at h
  split at h
  · cases h
  split at h
  · cases h
  rename_i key colon hkey
  obtain ⟨hjoined, hcolon⟩ := string_isJoined hkey (hchars.of_suffix (cur.drop_suffix 1))
  have hcolon := (colon.skipSpace_suffix.trans hcolon).trans (cur.drop_suffix 1)
  extract_lets atColon at h
  split at h
  · cases h
  have hstart := ((Cursor.skipSpace_suffix (atColon.drop 1)).trans
    (Cursor.drop_suffix 1 atColon)).trans hcolon
  split at h
  · cases h
  rename_i v after hvalue
  obtain ⟨hv, hafter⟩ := ih.value hvalue (hchars.of_suffix hstart)
  have hsettled := (after.skipSpace_suffix.trans hafter).trans hstart
  have hput := hdone.put hjoined hv
  extract_lets settled done at h
  have hnext := (Cursor.drop_suffix 1 settled).trans hsettled
  split at h
  · obtain ⟨rfl, rfl⟩ := Prod.mk.inj (Except.ok.inj h)
    exact ⟨hput, hnext⟩
  · have hmore := (Cursor.skipSpace_suffix (settled.drop 1)).trans hnext
    obtain ⟨hms, hlast⟩ := ih.members h (hchars.of_suffix hmore) hput
    exact ⟨hms, hlast.trans hmore⟩
  · cases h

end Step

theorem readsReadable (fuel : Nat) : ReadsReadable fuel := by
  induction fuel with
  | zero =>
    refine ⟨?_, ?_, ?_⟩
    · intro _ _ _ _ h
      cases h
    · intro _ _ _ _ h
      cases h
    · intro _ _ _ _ _ h
      cases h
  | succ fuel ih =>
    exact ⟨fun h hchars => value_isReadable ih hchars h,
      fun h hchars => items_isReadable ih hchars h,
      fun h hchars hdone => members_isReadable ih hchars h hdone⟩

theorem isReadable_of_read (hchars : text.IsChars) (h : read text = .ok v) :
    IsReadableIn maxLevels v := by
  unfold read at h
  extract_lets start at h
  split at h
  · cases h
  split at h
  · cases h
  rename_i w next hvalue
  have hread := (readsReadable _).value hvalue
    (hchars.of_suffix (Cursor.skipSpace_suffix ⟨0, text⟩))
  extract_lets last at h
  split at h
  · rw [← Except.ok.inj h]
    exact hread.1
  · cases h

theorem IsPlain.isFileLetter_write (h : IsPlain v) : ∀ l ∈ write v, IsFileLetter l := by
  intro l hl
  rcases List.mem_append.mp hl with hl | hl
  · exact h.isFileLetter 0 l hl
  · rw [List.mem_singleton.mp hl]
    exact .inl rfl

theorem IsPlain.isChars_write (h : IsPlain v) : (write v).IsChars := by
  intro l hl
  cases l with
  | char c => exact ⟨c, rfl⟩
  | half place =>
    rcases h.isFileLetter_write _ hl with hl | ⟨-, hl⟩
    · cases hl
    · have hcode : (Letter.half place).code = 0xD800 + place.val := rfl
      omega

theorem IsReadable.exists_bytes (h : IsReadable v) :
    ∃ bytes, Text.bytes? (write v) = some bytes ∧ Text.readText bytes = .ok (write v) :=
  exists_bytes_of_isFileLetter h.isPlain.isFileLetter_write

end Json

namespace Text

theorem IsChars.newlines {text : Text} (h : text.IsChars) : text.newlines.IsChars := by
  fun_induction Text.newlines text with
  | case1 => exact h
  | case2 text ih =>
    have hrest := ih (h.of_suffix ⟨[.char '\r', .char '\n'], rfl⟩)
    exact List.forall_mem_cons.mpr ⟨⟨'\n', rfl⟩, hrest⟩
  | case3 l text _ ih =>
    refine List.forall_mem_cons.mpr ⟨?_, ih (h.of_suffix (List.suffix_cons _ _))⟩
    split
    · exact ⟨'\n', rfl⟩
    · exact h l List.mem_cons_self

theorem isChars_readText {bytes : ByteArray} {text : Text} (h : readText bytes = .ok text) :
    text.IsChars := by
  obtain ⟨decoded, hdecoded, rfl⟩ := Outcome.map_eq_ok.mp h
  unfold decodeUtf8 at hdecoded
  split at hdecoded
  · rw [← Except.ok.inj hdecoded]
    exact (isChars_ofChars _).newlines
  · cases hdecoded

theorem IsChars.exists_bytes {text : Text} (h : text.IsChars) :
    ∃ bytes, Text.bytes? text = some bytes := by
  have hchars : ∃ cs, text.chars? = some cs := by
    unfold Text.chars?
    induction text with
    | nil => exact ⟨[], rfl⟩
    | cons l rest ih =>
      obtain ⟨c, rfl⟩ := h l List.mem_cons_self
      obtain ⟨cs, hcs⟩ := ih fun m hm => h m (List.mem_cons_of_mem _ hm)
      exact ⟨c :: cs, by simp [Letter.char?, hcs]⟩
  obtain ⟨cs, hcs⟩ := hchars
  exact ⟨_, by rw [Text.bytes?, Text.string?, hcs]; rfl⟩

end Text

end AgentConfig

namespace AgentConfig

open List Text

variable {a b s separator text : Text}

namespace Text

theorem IsChars.append (ha : a.IsChars) (hb : b.IsChars) : (a ++ b).IsChars :=
  forall_mem_append.mpr ⟨ha, hb⟩

theorem IsChars.flatMap {f : Letter → Text} (h : ∀ l ∈ text, (f l).IsChars) :
    IsChars (text.flatMap f) := by
  intro l hl
  obtain ⟨x, hx, hl⟩ := mem_flatMap.mp hl
  exact h x hx l hl

theorem IsChars.intercalate {parts : List Text} (hseparator : separator.IsChars)
    (h : ∀ part ∈ parts, IsChars part) : (Text.intercalate separator parts).IsChars := by
  unfold Text.intercalate
  induction parts with
  | nil => nofun
  | cons part rest ih =>
    have hrest := ih fun other hother => h other (mem_cons_of_mem _ hother)
    cases rest with
    | nil =>
      rw [intercalate_singleton]
      exact h part mem_cons_self
    | cons next rest =>
      rw [intercalate_cons_cons]
      exact ((h part mem_cons_self).append hseparator).append hrest

theorem isChars_ofString (s : String) : (ofString s).IsChars := isChars_ofChars _

theorem isChars_quotedLetter (quote : Char) (l : Letter) : (quotedLetter quote l).IsChars := by
  unfold quotedLetter
  cases l with
  | char c =>
    split
    · exact isChars_ofChars ['\\', c]
    repeat' split
    all_goals first | exact isChars_ofString _ | exact isChars_ofChars [c] | skip
    all_goals exact (isChars_ofString _).append (isChars_ofChars _)
  | half place =>
    rw [if_neg (by simp), if_neg (by simp), if_neg (by simp), if_neg (by simp),
      if_neg (by simp [isPrintable])]
    split
    · exact (isChars_ofString _).append (isChars_ofChars _)
    split
    · exact (isChars_ofString _).append (isChars_ofChars _)
    · exact (isChars_ofString _).append (isChars_ofChars _)

theorem isChars_quoted (text : Text) : (quoted text).IsChars := by
  refine IsChars.append (a := _ :: _) ?_ (isChars_ofChars [_])
  exact (isChars_ofChars [_]).append (.flatMap fun l _ => isChars_quotedLetter _ l)

end Text

namespace Json

mutual

theorem isChars_literal : (v : Json) → v.literal.IsChars
  | .null | .bool true | .bool false | .int _ | .real _ => isChars_ofString _
  | .str s => isChars_quoted s
  | .arr items =>
    ((isChars_ofString _).append
      (.intercalate (isChars_ofString _) (isChars_literals items))).append
      (isChars_ofString _)
  | .obj members =>
    ((isChars_ofString _).append
      (.intercalate (isChars_ofString _) (isChars_memberLiterals members))).append
      (isChars_ofString _)

theorem isChars_literals : (items : List Json) → ∀ part ∈ literals items, part.IsChars
  | [] => nofun
  | v :: rest => forall_mem_cons.mpr ⟨isChars_literal v, isChars_literals rest⟩

theorem isChars_memberLiterals :
    (members : List (Text × Json)) → ∀ part ∈ memberLiterals members, part.IsChars
  | [] => nofun
  | (k, v) :: rest =>
    forall_mem_cons.mpr
      ⟨((isChars_quoted k).append (isChars_ofString _)).append (isChars_literal v),
        isChars_memberLiterals rest⟩

end

theorem isJoined_of_isChars (h : s.IsChars) : IsJoined s := by
  unfold IsJoined
  induction s with
  | nil => exact isChain_nil
  | cons l rest ih =>
    refine (ih fun other hother => h other (mem_cons_of_mem _ hother)).cons fun next _ => ?_
    obtain ⟨c, rfl⟩ := h l mem_cons_self
    intro hhigh
    rw [(Letter.isSurrogate_char _).1] at hhigh
    cases hhigh

theorem IsReadable.isJoined_text {v : Json} (h : IsReadable v) : IsJoined v.text := by
  cases h with
  | str h => exact h
  | _ => exact isJoined_of_isChars (isChars_literal _)

end Json

end AgentConfig
