import Mathlib

set_option autoImplicit false

/-! # Byte memories

A memory gives the byte at every address. `read` and `write` move a run of consecutive bytes; a
write is seen by the reads inside its range and by no read apart from it. -/

/-- The byte at each address. -/
abbrev Memory := Nat → UInt8

namespace Memory

variable (m : Memory)

/-- The `n` bytes from `base` on. -/
def read (base n : Nat) : List UInt8 := (List.range n).map fun i => m (base + i)

/-- Overwrite the bytes from `base` on. -/
def write (base : Nat) (bytes : List UInt8) : Memory := fun i =>
  if base ≤ i then (bytes[i - base]?).getD (m i) else m i

theorem getElem?_read (base n i : Nat) :
    (m.read base n)[i]? = if i < n then some (m (base + i)) else none := by
  rw [read, List.getElem?_map]
  split
  next h => rw [List.getElem?_range h]; rfl
  next h => rw [List.getElem?_eq_none (by simpa using h)]; rfl

theorem read_congr {m m' : Memory} {base base' n : Nat}
    (h : ∀ i < n, m (base + i) = m' (base' + i)) : m.read base n = m'.read base' n := by
  refine List.map_congr_left fun i hi => h i (List.mem_range.1 hi)

theorem read_write_self (base : Nat) (bytes : List UInt8) :
    (m.write base bytes).read base bytes.length = bytes := by
  refine List.ext_getElem? fun i => ?_
  rw [getElem?_read]
  split
  next h =>
    rw [write, if_pos (Nat.le_add_right _ _), Nat.add_sub_cancel_left, List.getElem?_eq_getElem h]
    rfl
  next h => rw [List.getElem?_eq_none (by omega)]

theorem write_of_not_mem {base i : Nat} {bytes : List UInt8}
    (h : i < base ∨ base + bytes.length ≤ i) : m.write base bytes i = m i := by
  rw [write]
  split
  next hle =>
    rw [List.getElem?_eq_none (by omega)]
    rfl
  · rfl

end Memory
