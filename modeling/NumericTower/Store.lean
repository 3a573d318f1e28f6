import NumericTower.Numeral.Digit

/-!
# The value store

Values are kept in slots and named by handles. A slot that is released is used again, the last released
one first; its generation counts the releases, so a handle from before finds nothing. How many values are
stored is kept beside them and not looked up in the slots.
-/

namespace NumericTower

/-- A handle to a stored value: a slot and the generation in which it was given out. -/
structure ValueRef where
  /-- A number of 32 bits in a store of up to `2 ^ 32` slots. -/
  slot : Nat
  generation : UInt32
  deriving DecidableEq

/-- How a handle reads in a text. -/
def ValueRef.render (r : ValueRef) : String :=
  "ValueRef \x7b slot: " ++ Numeral.render 10 r.slot ++ ", generation: " ++
    Numeral.render 10 r.generation.toNat ++ " \x7d"

/-- A place for a value. The generation goes back to zero after the last one of 32 bits. -/
structure Slot (α : Type) where
  generation : UInt32
  value : Option α

/-- The slots, those that are free, the next one to be used first, and a counter of the stored values. -/
structure Store (α : Type) where
  slots : Array (Slot α)
  free : List Nat
  /-- Every insertion counts up, and every release of a stored value down. -/
  live : Nat

namespace Store

variable {α : Type}

/-- The store with no slots. -/
def empty : Store α := ⟨#[], [], 0⟩

instance : Inhabited (Store α) := ⟨empty⟩

/-- The generation of a slot. -/
def generationOf (s : Store α) (i : Nat) : UInt32 :=
  (s.slots[i]?.map (·.generation)).getD 0

/-- Puts a value into a free slot, or into a new one if none is free. -/
def insert (s : Store α) (v : α) : ValueRef × Store α :=
  match s.free with
  | i :: free =>
    (⟨i, s.generationOf i⟩,
      ⟨s.slots.modify i fun e => { e with value := some v }, free, s.live + 1⟩)
  | [] => (⟨s.slots.size, 0⟩, ⟨s.slots.push ⟨0, some v⟩, [], s.live + 1⟩)

/-- The value of a handle; none once it is released. -/
def get? (s : Store α) (r : ValueRef) : Option α :=
  s.slots[r.slot]?.bind fun e => if e.generation = r.generation then e.value else none

/-- Frees the slot of a handle and takes its value out. A handle that finds nothing changes nothing. -/
def release (s : Store α) (r : ValueRef) : Option α × Store α :=
  match s.get? r with
  | none => (none, s)
  | some v =>
    (some v, ⟨s.slots.modify r.slot fun e => ⟨e.generation + 1, none⟩, r.slot :: s.free, s.live - 1⟩)

/-- How many values are stored, by the counter. -/
def liveCount (s : Store α) : Nat :=
  s.live

end Store

end NumericTower
