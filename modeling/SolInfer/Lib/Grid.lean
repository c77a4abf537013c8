import Mathlib

set_option autoImplicit false

/-! # Grids of threads

A kernel runs the same code for every thread of a grid on a memory that they share. The threads run in any
order; when each one leaves the cells of the others alone, the cells of a thread hold in the end what that
thread made of them alone. -/

open List

namespace Grid

variable {T σ β : Type}

/-- An order in which the threads of a grid run: every thread once. -/
structure Order (T : Type) where
  threads : List T
  nodup : threads.Nodup
  mem : ∀ t, t ∈ threads

/-- Run all threads; `none` stands for a thread that does not end. -/
def launch (thread : T → σ → Option σ) (order : Order T) (s : σ) : Option σ :=
  order.threads.foldlM (fun s t => thread t s) s

variable {thread : T → σ → Option σ} {s s' : σ}

theorem foldlM_isSome (h : ∀ t s, ∃ s', thread t s = some s') (l : List T) (s : σ) :
    ∃ s', l.foldlM (fun s t => thread t s) s = some s' := by
  induction l generalizing s with
  | nil => exact ⟨s, rfl⟩
  | cons t rest ih =>
    obtain ⟨s₁, h₁⟩ := h t s
    rw [foldlM_cons, h₁]
    exact ih s₁

theorem launch_isSome (h : ∀ t s, ∃ s', thread t s = some s') (order : Order T) (s : σ) :
    ∃ s', launch thread order s = some s' := foldlM_isSome h order.threads s

theorem foldlM_frame {cells : σ → β} {l : List T}
    (hframe : ∀ t ∈ l, ∀ s s', thread t s = some s' → cells s' = cells s)
    (hrun : l.foldlM (fun s t => thread t s) s = some s') : cells s' = cells s := by
  induction l generalizing s with
  | nil => cases hrun; rfl
  | cons t rest ih =>
    obtain ⟨s₁, h₁, hrest⟩ := Option.bind_eq_some_iff.1 hrun
    rw [ih (fun u hu => hframe u (.tail _ hu)) hrest]
    exact hframe t mem_cons_self s s₁ h₁

theorem launch_frame (cells : σ → β) {order : Order T}
    (hframe : ∀ t s s', thread t s = some s' → cells s' = cells s) (hrun : launch thread order s = some s') :
    cells s' = cells s := foldlM_frame (fun t _ => hframe t) hrun

/-- **Cells of one thread.** When the other threads leave the cells alone, they hold in the end what their
    thread made of them. -/
theorem launch_cells (cells : σ → β) (t : T) {order : Order T}
    (hframe : ∀ u, u ≠ t → ∀ s s', thread u s = some s' → cells s' = cells s)
    (hrun : launch thread order s = some s') :
    ∃ s₁ s₂, thread t s₁ = some s₂ ∧ cells s₁ = cells s ∧ cells s' = cells s₂ := by
  obtain ⟨before, after, horder⟩ := append_of_mem (order.mem t)
  have hnodup := horder ▸ order.nodup
  obtain ⟨-, hnot, hdisj⟩ := nodup_append'.1 hnodup
  rw [launch, horder, foldlM_append] at hrun
  obtain ⟨s₁, h₁, hrun⟩ := Option.bind_eq_some_iff.1 hrun
  obtain ⟨s₂, h₂, hrun⟩ := Option.bind_eq_some_iff.1 hrun
  refine ⟨s₁, s₂, h₂, foldlM_frame (fun u hu => hframe u ?_) h₁, foldlM_frame (fun u hu => hframe u ?_) hrun⟩
  · rintro rfl
    exact hdisj hu mem_cons_self
  · rintro rfl
    exact (nodup_cons.1 hnot).1 hu

/-! ## 32-bit indexes -/

/-- What a signed 32-bit variable keeps of a number. -/
@[irreducible]
def int32 (v : Int) : Int := v.bmod (2 ^ 32)

/-- What an unsigned 32-bit variable keeps. -/
def uint32 (k : Nat) : Nat := k % 2 ^ 32

/-- The cell that a signed 32-bit index points to; addresses have 64 bits. -/
def cell (v : Int) : Nat := (int32 v % 2 ^ 64).toNat

theorem int32_eq {v : Int} (h0 : -1 ≤ v) (h : v < 2 ^ 31) : int32 v = v := by
  rw [int32, Int.bmod_eq_of_le (by omega) (by omega)]

@[simp]
theorem int32_int32_add (v w : Int) : int32 (int32 v + w) = int32 (v + w) := by
  simp only [int32, Int.bmod_add_bmod]

@[simp]
theorem cell_int32_add (v w : Int) : cell (int32 v + w) = cell (v + w) := by
  rw [cell, cell, int32_int32_add]

@[simp]
theorem cell_int32 (v : Int) : cell (int32 v) = cell v := by
  simpa using cell_int32_add v 0

theorem cell_natCast {k : Nat} (h : k < 2 ^ 31) : cell k = k := by
  rw [cell, int32_eq (by omega) (by omega)]
  omega

/-- The cell of a column in rows of length `w`. -/
def rowCell (b w k : Nat) : Nat := cell (b * w + k : Nat)

theorem rowCell_eq {b w k : Nat} (h : b * w + k < 2 ^ 31) : rowCell b w k = b * w + k := cell_natCast h

theorem uint32_eq {k : Nat} (h : k < 2 ^ 32) : uint32 k = k := Nat.mod_eq_of_lt h

/-- No index reaches a cell behind the first `2 ^ 31`, unless it wraps to the far end of the addresses. -/
theorem cell_lt_or_le (v : Int) : cell v < 2 ^ 31 ∨ 2 ^ 64 - 2 ^ 31 ≤ cell v := by
  have hlt : v.bmod (2 ^ 32) < 2 ^ 31 := Int.bmod_lt (by decide)
  have hle : -2 ^ 31 ≤ v.bmod (2 ^ 32) := Int.le_bmod (by decide)
  rw [cell, int32]
  omega

/-! ## Rows -/

section Rows

variable {α : Type}

theorem getElem?_flatten {rows : List (List α)} {w b k : Nat} (hw : ∀ r ∈ rows, r.length = w) (hk : k < w) :
    rows.flatten[b * w + k]? = (rows[b]?).bind (·[k]?) := by
  induction rows generalizing b with
  | nil => simp
  | cons r rest ih =>
    have hr := hw r mem_cons_self
    rw [flatten_cons]
    cases b with
    | zero => rw [Nat.zero_mul, Nat.zero_add, getElem?_append_left (by omega)]; rfl
    | succ b =>
      rw [Nat.succ_mul, getElem?_append_right (by omega),
        show b * w + w + k - r.length = b * w + k by omega,
        ih fun x hx => hw x (.tail _ hx)]
      rfl

/-- A matrix as a flat memory; past its end stands the default. -/
def tensor [Inhabited α] (rows : List (List α)) (k : Nat) : α := (rows.flatten[k]?).getD default

theorem tensor_eq [Inhabited α] {rows : List (List α)} {w b k : Nat} {row : List α} {a : α}
    (hw : ∀ r ∈ rows, r.length = w) (hrow : rows[b]? = some row) (hk : row[k]? = some a) :
    tensor rows (b * w + k) = a := by
  have hlen : k < w := by
    rw [← hw row (List.mem_of_getElem? hrow)]
    exact (List.getElem?_eq_some_iff.1 hk).1
  rw [tensor, getElem?_flatten hw hlen, hrow, Option.bind_some, hk, Option.getD_some]

theorem row_inj {w b b' k k' : Nat} (hk : k < w) (hk' : k' < w) (h : b * w + k = b' * w + k') :
    b = b' ∧ k = k' := by
  have hb : b = b' := by
    have h1 : (b * w + k) / w = b := by
      rw [Nat.mul_comm, Nat.mul_add_div (by omega), Nat.div_eq_of_lt hk, Nat.add_zero]
    have h2 : (b' * w + k') / w = b' := by
      rw [Nat.mul_comm, Nat.mul_add_div (by omega), Nat.div_eq_of_lt hk', Nat.add_zero]
    rw [← h1, h, h2]
  subst hb
  exact ⟨rfl, by omega⟩

end Rows

end Grid
