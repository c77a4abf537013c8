import Mathlib

set_option autoImplicit false

/-! # Batches

A batch is the list of its rows. A function is row-wise when each row of its result depends only on the
row at the same index, and on the index. -/

open List

namespace Batch

variable {α β : Type} {indices : List Nat} {rows xs : List α}

/-! ## Selecting rows -/

/-- The rows at the given indices, in their order; an index may come several times. -/
def select (indices : List Nat) (rows : List α) : List α :=
  indices.filterMap fun i => rows[i]?

def InRange (indices : List Nat) (n : Nat) : Prop := ∀ i ∈ indices, i < n

theorem InRange.tail {i n : Nat} {rest : List Nat} (h : InRange (i :: rest) n) : InRange rest n :=
  fun k hk => h k (mem_cons_of_mem i hk)

theorem select_cons {i : Nat} {rest : List Nat} (h : i < rows.length) :
    select (i :: rest) rows = rows[i] :: select rest rows := by
  rw [select, filterMap_cons_some (getElem?_eq_getElem h)]
  rfl

theorem getElem?_select (h : InRange indices rows.length)
    (j : Nat) : (select indices rows)[j]? = indices[j]?.bind (fun i => rows[i]?) := by
  induction indices generalizing j with
  | nil => simp [select]
  | cons i rest ih =>
    have hi := h i mem_cons_self
    rw [select_cons hi]
    cases j with
    | zero => simp [hi]
    | succ j => simpa using ih h.tail j

@[simp]
theorem length_select (h : InRange indices rows.length) :
    (select indices rows).length = indices.length := by
  induction indices with
  | nil => rfl
  | cons i rest ih =>
    rw [select_cons (h i mem_cons_self), length_cons, length_cons, ih h.tail]

theorem select_map (indices : List Nat) (rows : List α) (f : α → β) :
    select indices (rows.map f) = (select indices rows).map f := by
  simp [select, map_filterMap]

theorem select_zip {ys : List β} (hx : InRange indices xs.length) (hy : InRange indices ys.length) :
    (select indices xs).zip (select indices ys) = select indices (xs.zip ys) := by
  induction indices with
  | nil => rfl
  | cons i rest ih =>
    have hix := hx i mem_cons_self
    have hiy := hy i mem_cons_self
    have hi : i < (xs.zip ys).length := by
      rw [length_zip]
      exact lt_min hix hiy
    rw [select_cons hix, select_cons hiy, select_cons hi, zip_cons_cons, getElem_zip, ih hx.tail hy.tail]

/-- **Row-wise functions commute with selecting rows**, when each selected row is treated as the row it
    is selected from. -/
theorem mapIdx_select (h : InRange indices rows.length)
    {f g : Nat → α → β} (hfg : ∀ j i, indices[j]? = some i → ∀ x, f j x = g i x) :
    (select indices rows).mapIdx f = select indices (rows.mapIdx g) := by
  have h' : InRange indices (rows.mapIdx g).length := by rwa [length_mapIdx]
  refine ext_getElem? fun j => ?_
  rw [getElem?_mapIdx, getElem?_select h, getElem?_select h']
  cases hj : indices[j]? with
  | none => rfl
  | some i =>
    simp only [Option.bind_some, getElem?_mapIdx]
    exact Option.map_congr fun x _ => hfg j i hj x

/-! ## Broadcasting -/

/-- An operation on the rows of two batches of one size; a batch of one row is repeated. Other sizes do
    not fit together. -/
def broadcast (f : α → α → α) (xs ys : List α) : Option (List α) :=
  if xs.length = ys.length then some (zipWith f xs ys)
  else
    match xs, ys with
    | [x], ys => some (ys.map (f x))
    | xs, [y] => some (xs.map (fun x => f x y))
    | _, _ => none

theorem broadcast_of_ne {f : α → α → α} {ys : List α} (h : xs.length ≠ ys.length)
    (hx : xs.length ≠ 1) (hy : ys.length ≠ 1) : broadcast f xs ys = none := by
  unfold broadcast
  rw [if_neg h]
  split
  · exact absurd rfl hx
  · exact absurd rfl hy
  · rfl

theorem length_of_broadcast {f : α → α → α} {ys zs : List α} (h : broadcast f xs ys = some zs)
    (hx : xs.length ≠ 1) : zs.length = xs.length := by
  unfold broadcast at h
  split at h
  next heq =>
    cases h
    simp [heq]
  · split at h
    · exact absurd rfl hx
    · cases h
      simp
    · cases h

end Batch
