import Mathlib

set_option autoImplicit false

/-! # Slices of a buffer

A buffer is the list of its elements. Overwriting a slice is seen by the reads of that slice, and by no
read of a slice apart from it. -/

namespace Slices

variable {α : Type} {buffer values : List α} {offset offset' n : Nat}

/-- `buffer[offset : offset + n]` -/
def read (buffer : List α) (offset n : Nat) : List α := (buffer.drop offset).take n

/-- `buffer[offset : offset + len(values)].copy_(values)` -/
def write (buffer : List α) (offset : Nat) (values : List α) : List α :=
  buffer.take offset ++ (values ++ buffer.drop (offset + values.length))

@[simp]
theorem length_write (h : offset + values.length ≤ buffer.length) :
    (write buffer offset values).length = buffer.length := by
  simp only [write, List.length_append, List.length_take, List.length_drop]
  omega

theorem getElem?_read (buffer : List α) (offset n j : Nat) :
    (read buffer offset n)[j]? = if j < n then buffer[offset + j]? else none := by
  simp only [read, List.getElem?_take, List.getElem?_drop]

theorem splitLengths_flatten (pieces : List (List α)) :
    (pieces.map List.length).splitLengths pieces.flatten = pieces := by
  induction pieces with
  | nil => rfl
  | cons piece rest ih =>
    rw [List.map_cons, List.splitLengths_cons, List.flatten_cons, List.take_left, List.drop_left, ih]

section

variable (h : offset + values.length ≤ buffer.length)
include h

theorem getElem?_write (j : Nat) :
    (write buffer offset values)[j]? =
      if offset ≤ j ∧ j < offset + values.length then values[j - offset]? else buffer[j]? := by
  have htake : (buffer.take offset).length = offset := by
    rw [List.length_take]
    omega
  rw [write, List.getElem?_append, htake]
  split
  next hj =>
    rw [if_neg (by omega), List.getElem?_take, if_pos hj]
  next hj =>
    rw [List.getElem?_append]
    split
    next hin => rw [if_pos (by omega)]
    next hin =>
      rw [if_neg (by omega), List.getElem?_drop]
      congr 1
      omega

theorem read_write_self : read (write buffer offset values) offset values.length = values := by
  refine List.ext_getElem? fun j => ?_
  rw [getElem?_read]
  split
  next hj => rw [getElem?_write h, if_pos (by omega), Nat.add_sub_cancel_left]
  next hj => rw [List.getElem?_eq_none (by omega)]

theorem read_write_of_apart (hapart : offset + values.length ≤ offset' ∨ offset' + n ≤ offset) :
    read (write buffer offset values) offset' n = read buffer offset' n := by
  refine List.ext_getElem? fun j => ?_
  rw [getElem?_read, getElem?_read]
  split
  next hj => rw [getElem?_write h, if_neg (by omega)]
  · rfl

end

end Slices
