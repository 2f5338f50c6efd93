import AgentConfig.Json.Basic
import Mathlib.Data.List.Basic

namespace AgentConfig.Json.Members

open List

def keys (members : Members) : List Text := members.map (·.1)

variable {members others : Members} {key other : Text} {value : Json} {m : Text × Json}

@[simp]
theorem keys_cons (k : Text) (v : Json) (rest : Members) : keys ((k, v) :: rest) = k :: keys rest :=
  rfl

@[simp]
theorem get?_nil (key : Text) : get? key [] = none := rfl

theorem get?_cons (key k : Text) (v : Json) (rest : Members) :
    get? key ((k, v) :: rest) = if k = key then some v else get? key rest := by
  rw [get?, lookup_cons]
  by_cases hk : k = key
  · simp [hk]
  · have hne : (key == k) = false := by simpa using Ne.symm hk
    rw [hne, if_neg hk]
    rfl

theorem get?_cons_self (key : Text) (v : Json) (rest : Members) :
    get? key ((key, v) :: rest) = some v := by
  rw [get?_cons, if_pos rfl]

theorem mem_of_get? (h : get? key members = some value) : (key, value) ∈ members := by
  induction members with
  | nil => cases h
  | cons first rest ih =>
    rw [get?_cons] at h
    split at h
    · rename_i hk
      obtain rfl := Option.some.inj h
      rw [← hk]
      exact mem_cons_self
    · exact mem_cons_of_mem _ (ih h)

theorem get?_eq_none_iff : get? key members = none ↔ key ∉ keys members := by
  induction members with
  | nil => simp [keys]
  | cons first rest ih =>
    rw [get?_cons, keys, map_cons, mem_cons, not_or]
    split
    · rename_i hk
      simp [hk]
    · rename_i hk
      rw [ih]
      exact ⟨fun h => ⟨Ne.symm hk, h⟩, fun h => h.2⟩

theorem exists_get?_iff : (∃ v, get? key members = some v) ↔ key ∈ keys members := by
  rw [← not_iff_not, ← get?_eq_none_iff, not_exists]
  cases get? key members <;> simp

theorem get?_of_mem (hnodup : (keys members).Nodup) (h : (key, value) ∈ members) :
    get? key members = some value := by
  induction members with
  | nil => cases h
  | cons first rest ih =>
    obtain ⟨k, v⟩ := first
    rw [keys, map_cons, nodup_cons] at hnodup
    rw [get?_cons]
    rcases mem_cons.mp h with heq | h
    · obtain ⟨rfl, rfl⟩ := Prod.mk.inj heq
      exact if_pos rfl
    have hk : k ≠ key := by
      rintro rfl
      exact hnodup.1 (mem_map.mpr ⟨_, h, rfl⟩)
    rw [if_neg hk, ih hnodup.2 h]

theorem hasKey_iff : hasKey key members = true ↔ key ∈ keys members := by
  simp [hasKey, keys]

theorem get?_put_self (key : Text) (value : Json) (members : Members) :
    get? key (put key value members) = some value := by
  induction members with
  | nil => simp [put, get?_cons]
  | cons first rest ih =>
    rw [put]
    split
    · rename_i hk
      rw [get?_cons, if_pos hk]
    · rename_i hk
      rw [get?_cons, if_neg hk, ih]

theorem get?_put_ne (h : other ≠ key) (value : Json) (members : Members) :
    get? other (put key value members) = get? other members := by
  induction members with
  | nil => simp [put, get?_cons, h.symm]
  | cons first rest ih =>
    rw [put]
    split
    · rename_i hk
      rw [get?_cons, get?_cons, hk, if_neg h.symm, if_neg h.symm]
    · rw [get?_cons, get?_cons, ih]

theorem keys_put (key : Text) (value : Json) (members : Members) : keys (put key value members) =
      if key ∈ keys members then keys members else keys members ++ [key] := by
  induction members with
  | nil => simp [put, keys]
  | cons first rest ih =>
    obtain ⟨k, v⟩ := first
    rw [put]
    by_cases hk : k = key
    · simp [hk]
    rw [if_neg hk, keys_cons, keys_cons, ih]
    simp only [mem_cons, Ne.symm hk, false_or]
    split
    · rfl
    · rfl

theorem put_put (value other : Json) (members : Members) :
    put key value (put key other members) = put key value members := by
  induction members with
  | nil => simp [put]
  | cons m members ih =>
    obtain ⟨k, v⟩ := m
    by_cases hk : k = key
    · simp [put, hk]
    · simp [put, hk, ih]

theorem nodup_keys_put (h : (keys members).Nodup) : (keys (put key value members)).Nodup := by
  rw [keys_put]
  split
  · exact h
  rename_i hnew
  exact nodup_append.mpr ⟨h, by simp, fun a ha b hb => by
    rw [mem_singleton.mp hb]
    rintro rfl
    exact hnew ha⟩

theorem mem_put (h : m ∈ put key value members) : m = (key, value) ∨ m ∈ members := by
  induction members with
  | nil => exact .inl (mem_singleton.mp h)
  | cons first rest ih =>
    rw [put] at h
    split at h
    · rename_i hk
      rcases mem_cons.mp h with rfl | h
      · exact .inl (by rw [hk])
      · exact .inr (mem_cons_of_mem _ h)
    · rcases mem_cons.mp h with rfl | h
      · exact .inr mem_cons_self
      · exact (ih h).imp_right (mem_cons_of_mem _)

theorem mem_erase : m ∈ erase key members ↔ m ∈ members ∧ m.1 ≠ key := by
  simp [erase]

theorem get?_filter (keep : Text → Bool) (key : Text) (members : Members) :
    get? key (members.filter fun m => keep m.1) = if keep key then get? key members else none := by
  induction members with
  | nil => simp
  | cons first rest ih =>
    obtain ⟨k, v⟩ := first
    by_cases hk : keep k = true <;> by_cases heq : k = key
    · simp [hk, ← heq, get?_cons]
    · simp [hk, heq, get?_cons, ih]
    · simp [hk, ← heq, heq ▸ ih]
    · simp [hk, heq, get?_cons, ih]

theorem get?_erase_self (key : Text) (members : Members) : get? key (erase key members) = none :=
  (get?_filter (· != key) key members).trans (by simp)

theorem get?_erase_ne (h : other ≠ key) (members : Members) :
    get? other (erase key members) = get? other members :=
  (get?_filter (· != key) other members).trans (by simp [h])

theorem erase_put (key : Text) (value : Json) (members : Members) :
    erase key (put key value members) = erase key members := by
  induction members with
  | nil => simp [put, erase]
  | cons m members ih =>
    obtain ⟨k, v⟩ := m
    unfold erase at ih ⊢
    by_cases hk : k = key
    · simp [put, hk]
    · simp [put, hk, ih]

theorem nodup_keys_erase (h : (keys members).Nodup) : (keys (erase key members)).Nodup :=
  h.sublist (filter_sublist.map _)

theorem mem_keys_erase : other ∈ keys (erase key members) ↔ other ∈ keys members ∧ other ≠ key := by
  simp only [keys, mem_map, mem_erase]
  constructor
  · rintro ⟨m, ⟨hm, hne⟩, rfl⟩
    exact ⟨⟨m, hm, rfl⟩, hne⟩
  · rintro ⟨⟨m, hm, rfl⟩, hne⟩
    exact ⟨m, ⟨hm, hne⟩, rfl⟩

theorem put_of_not_mem (h : key ∉ keys members) (value : Json) :
    put key value members = members ++ [(key, value)] := by
  induction members with
  | nil => rfl
  | cons m members ih =>
    rw [keys_cons, mem_cons, not_or] at h
    rw [put, if_neg (Ne.symm h.1), ih h.2, cons_append]

theorem eq_of_keys (hkeys : keys members = keys others) (hnodup : (keys others).Nodup)
    (hget : ∀ m ∈ members, get? m.1 others = some m.2) : members = others := by
  refine ext_getElem (by simpa [keys] using congrArg List.length hkeys) fun i hi hi' => ?_
  have hkey : members[i].1 = others[i].1 := by
    have h := getElem_of_eq hkeys (by simpa [keys] using hi)
    simpa [keys] using h
  have hvalue : get? others[i].1 others = some others[i].2 :=
    get?_of_mem hnodup (getElem_mem hi')
  rw [← hkey, hget _ (getElem_mem hi)] at hvalue
  exact Prod.ext hkey (Option.some.inj hvalue)

theorem eq_of_get? (hkeys : keys members = keys others) (hnodup : (keys members).Nodup)
    (h : ∀ key, get? key members = get? key others) : members = others :=
  eq_of_keys hkeys (hkeys ▸ hnodup) fun m hm => by rw [← h, get?_of_mem hnodup hm]

end AgentConfig.Json.Members

namespace AgentConfig.Json

/-- The keys of an object are apart and of the allowed ones, and so are those of the objects under
them. -/
inductive IsKeyed (allowed : Text → Prop) : Json → Prop
  | obj {members : Members} (nodup : members.keys.Nodup) (keys : ∀ key ∈ members.keys, allowed key)
    (values : ∀ m ∈ members, IsKeyed allowed m.2) : IsKeyed allowed (.obj members)
  | plain {v : Json} (h : ∀ members, v ≠ .obj members) : IsKeyed allowed v

variable {allowed : Text → Prop} {members : Members} {key : Text} {v : Json}

theorem IsKeyed.nodup_keys (h : IsKeyed allowed (.obj members)) : members.keys.Nodup := by
  cases h with
  | obj nodup _ _ => exact nodup
  | plain h => exact absurd rfl (h members)

theorem IsKeyed.value (h : IsKeyed allowed (.obj members)) (hget : members.get? key = some v) :
    IsKeyed allowed v := by
  cases h with
  | obj _ _ values => exact values _ (Members.mem_of_get? hget)
  | plain h => exact absurd rfl (h members)

end AgentConfig.Json
