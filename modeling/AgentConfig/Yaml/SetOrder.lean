import AgentConfig.Yaml.Value

namespace AgentConfig.Yaml.SetOrder

/-- Numbers are reduced modulo this prime, `2 ^ 61 - 1`. -/
def modulus : Nat := 2305843009213693951

/-- A residue with a sign; -1 gives way to -2. -/
def signed (negative : Bool) (n : Nat) : Int :=
  let key : Int := if negative then -(n : Int) else n
  if key = -1 then -2 else key

/-- The key of a number. Equal numbers have equal keys, since `2 ^ 61` is 1 modulo the prime. -/
def key? : Value → Option Int
  | .bool b => some (if b then 1 else 0)
  | .int n => some (signed (n < 0) (n.natAbs % modulus))
  | .float (.finite negative mantissa exponent) =>
    some (signed negative (mantissa * Binary64.power 2 (exponent % 61) % modulus))
  | .float (.infinite negative) => some (if negative then -314159 else 314159)
  | _ => none

/-- How many slots there are for some items: a power of two above twice their number, but 8 for
fewer than five. -/
def slotCount (items : Nat) : Nat :=
  if items < 5 then 8 else Nat.pow 2 (Nat.log2 (2 * items) + 1)

def neighbours : Nat := 9

def tried (slots : Array (Option Value)) (place : Nat) : List Nat :=
  if place + neighbours < slots.size then (List.range (neighbours + 1)).map (place + ·) else [place]

/-- The slot for a new item. `place` comes first, and `rest` holds what of the key has not yet been
used. Once that is nothing all slots are tried in turn, so `fuel` need only exceed their number by
the few steps that takes. -/
def freeSlot (slots : Array (Option Value)) : (fuel place rest : Nat) → Nat
  | 0, place, _ => place
  | fuel + 1, place, rest =>
    match (tried slots place).find? fun i => slots[i]? == some none with
    | some i => i
    | none =>
      let rest := rest / 32
      freeSlot slots fuel ((5 * place + 1 + rest) % slots.size) rest

/-- Puts an item into a slot. A negative key counts from `2 ^ 64` down. -/
def insert (slots : Array (Option Value)) (key : Int) (item : Value) : Array (Option Value) :=
  let key := (key % 18446744073709551616).toNat
  slots.setIfInBounds (freeSlot slots (slots.size + 16) (key % slots.size) key) (some item)

def ofItems (items : List Value) : List Value :=
  match items.mapM fun v => (key? v).map (·, v) with
  | none => items
  | some keyed =>
    let slots := Array.replicate (slotCount items.length) none
    (keyed.foldl (fun slots (key, v) => insert slots key v) slots).toList.filterMap id

end AgentConfig.Yaml.SetOrder
