import Mathlib

set_option autoImplicit false

/-! # Aligned sequential layouts

Pieces of given sizes are laid out one after another, each at the next multiple of the alignment. -/

namespace Layout

/-- The least multiple of `a` from `n` on. -/
def alignUp (a n : Nat) : Nat := (n + (a - 1)) / a * a

/-- The offset and size of each piece, from `off` on. -/
def place (a : Nat) : Nat → List Nat → List (Nat × Nat)
  | _, [] => []
  | off, n :: rest => (off, n) :: place a (alignUp a (off + n)) rest

/-- Whether every piece ends by `limit`. -/
def Fits (a off : Nat) (sizes : List Nat) (limit : Nat) : Prop :=
  ∀ p ∈ place a off sizes, p.1 + p.2 ≤ limit

instance (a off : Nat) (sizes : List Nat) (limit : Nat) : Decidable (Fits a off sizes limit) :=
  inferInstanceAs (Decidable (∀ p ∈ place a off sizes, p.1 + p.2 ≤ limit))

/-- Pieces that do not overlap, in the order in which they are laid out. -/
def Apart (ps : List (Nat × Nat)) : Prop := ps.Pairwise fun p q => p.1 + p.2 ≤ q.1

variable {a off : Nat}

theorem le_alignUp (ha : 0 < a) (n : Nat) : n ≤ alignUp a n := by
  have hdiv := Nat.div_add_mod (n + (a - 1)) a
  have hmod := Nat.mod_lt (n + (a - 1)) ha
  rw [alignUp, Nat.mul_comm]
  omega

theorem dvd_alignUp (a n : Nat) : a ∣ alignUp a n := Nat.dvd_mul_left _ _

theorem le_of_mem_place (ha : 0 < a) {sizes : List Nat} {p : Nat × Nat}
    (hp : p ∈ place a off sizes) : off ≤ p.1 := by
  induction sizes generalizing off with
  | nil => cases hp
  | cons n rest ih =>
    rcases List.mem_cons.1 hp with rfl | hp
    · exact Nat.le_refl _
    · have := ih hp
      have := le_alignUp ha (off + n)
      omega

theorem dvd_of_mem_place (hoff : a ∣ off) {sizes : List Nat} {p : Nat × Nat}
    (hp : p ∈ place a off sizes) : a ∣ p.1 := by
  induction sizes generalizing off with
  | nil => cases hp
  | cons n rest ih =>
    rcases List.mem_cons.1 hp with rfl | hp
    · exact hoff
    · exact ih (dvd_alignUp a _) hp

theorem place_apart (ha : 0 < a) (off : Nat) (sizes : List Nat) : Apart (place a off sizes) := by
  induction sizes generalizing off with
  | nil => exact List.Pairwise.nil
  | cons n rest ih =>
    refine List.Pairwise.cons (fun q hq => ?_) (ih _)
    exact (le_alignUp ha (off + n)).trans (le_of_mem_place ha hq)

def next (a : Nat) : Nat → List Nat → Nat
  | off, [] => off
  | off, n :: rest => next a (alignUp a (off + n)) rest

theorem dvd_next (hoff : a ∣ off) (sizes : List Nat) : a ∣ next a off sizes := by
  induction sizes generalizing off with
  | nil => exact hoff
  | cons n rest ih => exact ih (dvd_alignUp a _)

theorem place_append (a off : Nat) (xs ys : List Nat) :
    place a off (xs ++ ys) = place a off xs ++ place a (next a off xs) ys := by
  induction xs generalizing off with
  | nil => rfl
  | cons n rest ih => rw [List.cons_append, place, place, next, ih, List.cons_append]

theorem fits_cons {n limit : Nat} {rest : List Nat} :
    Fits a off (n :: rest) limit ↔ off + n ≤ limit ∧ Fits a (alignUp a (off + n)) rest limit := by
  rw [Fits, place, List.forall_mem_cons]
  rfl

theorem fits_append {limit : Nat} {xs ys : List Nat} :
    Fits a off (xs ++ ys) limit ↔ Fits a off xs limit ∧ Fits a (next a off xs) ys limit := by
  rw [Fits, place_append, List.forall_mem_append]
  rfl

end Layout
