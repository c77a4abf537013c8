import Mathlib

set_option autoImplicit false

/-! # Lists with holes as indexed entries

A list with holes is sent as its entries with their indices and rebuilt by writing each entry at its
index into a list of holes, as long as the largest index asks for. Only the holes after the last entry
are lost (`fill_indexed`). -/

open List

namespace Sparse

variable {α β : Type}

/-- The entries of a list with their indices, from index `i` on. -/
def indexed : Nat → List (Option α) → List (Nat × α)
  | _, [] => []
  | i, none :: rest => indexed (i + 1) rest
  | i, some a :: rest => (i, a) :: indexed (i + 1) rest

/-- The length that the indices ask for. -/
def size (ps : List (Nat × α)) : Nat := ps.foldl (fun n p => max n (p.1 + 1)) 0

def fill (holes : List (Option α)) (ps : List (Nat × α)) : List (Option α) :=
  ps.foldl (fun acc p => acc.set p.1 (some p.2)) holes

variable (f : α → β) (i : Nat) (l : List (Option α))

theorem indexed_append (l r : List (Option α)) :
    indexed i (l ++ r) = indexed i l ++ indexed (i + l.length) r := by
  induction l generalizing i with
  | nil => rfl
  | cons o rest ih =>
    have hi : i + (rest.length + 1) = i + 1 + rest.length := by omega
    cases o with
    | none => rw [cons_append, indexed, ih, indexed, length_cons, hi]
    | some a => rw [cons_append, indexed, ih, indexed, length_cons, hi, cons_append]

theorem indexed_map : indexed i (l.map (Option.map f)) = (indexed i l).map (fun p => (p.1, f p.2)) := by
  induction l generalizing i with
  | nil => rfl
  | cons o rest ih =>
    cases o with
    | none => exact ih (i + 1)
    | some a => exact congrArg ((i, f a) :: ·) (ih (i + 1))

/-- Filling in goes from left to right; `done` is what is rebuilt already. -/
theorem fill_append (done l : List (Option α)) :
    fill (done ++ replicate l.length none) (indexed done.length l) = done ++ l := by
  induction l generalizing done with
  | nil => simp [indexed, fill]
  | cons o rest ih =>
    have hnext := ih (done ++ [o])
    rw [length_append, length_singleton, append_assoc, append_assoc] at hnext
    cases o with
    | none => simpa [indexed, replicate_succ] using hnext
    | some a =>
      rw [indexed, fill, foldl_cons, length_cons, replicate_succ,
        set_append_right _ _ (le_refl _), Nat.sub_self, set_cons_zero]
      exact hnext

theorem foldl_size_le (ps : List (Nat × α)) (n m : Nat) (hn : n ≤ m) (h : ∀ p ∈ ps, p.1 < m) :
    ps.foldl (fun n p => max n (p.1 + 1)) n ≤ m := by
  induction ps generalizing n with
  | nil => exact hn
  | cons p rest ih =>
    have hp := h p mem_cons_self
    exact ih (max n (p.1 + 1)) (by omega) fun q hq => h q (.tail _ hq)

theorem bounds_of_mem_indexed {i : Nat} {l : List (Option α)} {p : Nat × α} (h : p ∈ indexed i l) :
    i ≤ p.1 ∧ p.1 < i + l.length := by
  induction l generalizing i with
  | nil => cases h
  | cons o rest ih =>
    rw [length_cons]
    cases o with
    | none =>
      have := ih h
      omega
    | some a =>
      rcases mem_cons.1 h with rfl | hr
      · show i ≤ i ∧ i < _
        omega
      · have := ih hr
        omega

theorem pairwise_indexed : (indexed i l).Pairwise (fun p q => p.1 < q.1) := by
  induction l generalizing i with
  | nil => exact List.Pairwise.nil
  | cons o rest ih =>
    cases o with
    | none => exact ih (i + 1)
    | some a => exact List.Pairwise.cons (fun q hq => (bounds_of_mem_indexed hq).1) (ih (i + 1))

theorem size_concat (a : α) : size (indexed 0 (l ++ [some a])) = l.length + 1 := by
  have hle := foldl_size_le (indexed 0 l) 0 l.length (Nat.zero_le _) (fun p hp => by
    have := bounds_of_mem_indexed hp
    omega)
  rw [indexed_append, size, foldl_append, Nat.zero_add]
  show max _ (l.length + 1) = l.length + 1
  omega

theorem rdropWhile_isNone_concat_none :
    (l ++ [none]).rdropWhile Option.isNone = l.rdropWhile Option.isNone := by
  rw [rdropWhile_concat_pos _ _ _ rfl]

theorem indexed_concat_none : indexed i (l ++ [none]) = indexed i l := by
  rw [indexed_append]
  exact append_nil _

/-- **Filling the entries of a list back in loses the holes at its end only.** -/
theorem fill_indexed :
    fill (replicate (size (indexed 0 l)) none) (indexed 0 l) = l.rdropWhile Option.isNone := by
  induction l using reverseRecOn with
  | nil => rfl
  | append_singleton l o ih =>
    cases o with
    | none => rw [indexed_concat_none, rdropWhile_isNone_concat_none, ih]
    | some a =>
      have hfill := fill_append [] (l ++ [some a])
      rw [length_append, length_singleton] at hfill
      rw [size_concat, rdropWhile_concat_neg _ _ _ (by simp)]
      exact hfill

theorem rdropWhile_isNone_map :
    (l.map (Option.map f)).rdropWhile Option.isNone
      = (l.rdropWhile Option.isNone).map (Option.map f) := by
  induction l using reverseRecOn with
  | nil => rfl
  | append_singleton l o ih =>
    cases o with
    | none =>
      rw [map_append, map_singleton, Option.map_none, rdropWhile_isNone_concat_none,
        rdropWhile_isNone_concat_none, ih]
    | some a =>
      rw [map_append, map_singleton, Option.map_some,
        rdropWhile_concat_neg _ _ _ (by simp), rdropWhile_concat_neg _ _ _ (by simp),
        map_append]
      rfl

theorem fill_indexed_map :
    fill (replicate (size (indexed 0 l)) none) ((indexed 0 l).map (fun p => (p.1, f p.2)))
      = (l.rdropWhile Option.isNone).map (Option.map f) := by
  have hsize : size (indexed 0 l) = size (indexed 0 (l.map (Option.map f))) := by
    rw [indexed_map, size, size, foldl_map]
  rw [hsize, ← indexed_map, fill_indexed, rdropWhile_isNone_map]

end Sparse
