import SolInfer.Transport.Allocator
import SolInfer.Lib.Tiling

set_option autoImplicit false

/-! # The representation invariant of the buddy allocator

`Inv a hole` says that the blocks of `a` tile the pool, that each has the size of an order and is
aligned to it, and that the free lists and the two counters describe them. `hole` is the block in
hand while a call is under way: free, but on no free list. Every mutation of the source is a step
from one hole to another (`popFree_inv`, `splitOnce_inv`, `mergeBuddy_inv`, `pushFree_inv`, …), so a
call is a chain of steps that starts and ends with no hole. -/

open List Dict

namespace BuddyAllocator

/-! ## Sizes and orders -/

theorem le_sizeToOrderLoop (size fuel s order : Nat) : order ≤ sizeToOrderLoop size fuel s order := by
  induction fuel generalizing s order with
  | zero => exact le_refl _
  | succ fuel ih =>
    rw [sizeToOrderLoop]
    split
    · exact le_trans (Nat.le_succ order) (ih _ _)
    · exact le_refl _

theorem sizeToOrderLoop_le_iff (size fuel s order k : Nat) (hs : 0 < s) (hf : size ≤ s + fuel) :
    sizeToOrderLoop size fuel s order ≤ order + k ↔ size ≤ s * 2 ^ k := by
  induction fuel generalizing s order k with
  | zero =>
    have hle : s * 1 ≤ s * 2 ^ k := Nat.mul_le_mul_left s Nat.one_le_two_pow
    simp only [sizeToOrderLoop]
    omega
  | succ fuel ih =>
    have hle : s * 1 ≤ s * 2 ^ k := Nat.mul_le_mul_left s Nat.one_le_two_pow
    rw [sizeToOrderLoop]
    split
    next hlt =>
      have hshift : s <<< 1 = s * 2 := by rw [Nat.shiftLeft_eq]
      cases k with
      | zero =>
        have := le_sizeToOrderLoop size fuel (s <<< 1) (order + 1)
        omega
      | succ k =>
        have h := ih (s <<< 1) (order + 1) k (by omega) (by omega)
        rw [hshift, Nat.mul_assoc, ← Nat.pow_succ'] at h
        rw [← h, hshift]
        omega
    · omega

variable {k : Nat}

theorem sizeToOrder_le_iff {min size : Nat} (hmin : 0 < min) :
    sizeToOrder min size ≤ k ↔ size ≤ min * 2 ^ k := by
  have h := sizeToOrderLoop_le_iff size size min 0 k hmin (by omega)
  rwa [Nat.zero_add] at h

theorem le_sizeToOrder {min : Nat} (hmin : 0 < min) (size : Nat) :
    size ≤ min * 2 ^ sizeToOrder min size := (sizeToOrder_le_iff hmin).1 (le_refl _)

@[simp]
theorem sizeToOrder_mul_two_pow {min : Nat} (hmin : 0 < min) (k : Nat) :
    sizeToOrder min (min * 2 ^ k) = k := by
  refine le_antisymm ((sizeToOrder_le_iff hmin).2 (le_refl _)) ?_
  have h := le_sizeToOrder hmin (min * 2 ^ k)
  exact (Nat.pow_le_pow_iff_right (by omega)).1 (Nat.le_of_mul_le_mul_left h hmin)

/-- The cascade of `_next_power_of_2` fills the windows of 64 bits of its argument. -/
theorem nextPowerOf2_eq {n : Int} (hn : 0 < n) :
    ∃ m, Bits.IsWindow 64 (n - 1).toNat m ∧ (n - 1).toNat ≤ m ∧ nextPowerOf2 n = m + 1 := by
  have hnot : ¬ n ≤ 0 := by omega
  let m := (n - 1).toNat
  refine ⟨Bits.orShift 32 (Bits.orShift 16 (Bits.orShift 8 (Bits.orShift 4
    (Bits.orShift 2 (Bits.orShift 1 m))))), ?_, ?_, ?_⟩
  · exact (Bits.isWindow_one m).orShift.orShift.orShift.orShift.orShift.orShift
  · calc m ≤ Bits.orShift 1 m := Bits.le_orShift ..
      _ ≤ _ := Bits.le_orShift 2 _
      _ ≤ _ := Bits.le_orShift 4 _
      _ ≤ _ := Bits.le_orShift 8 _
      _ ≤ _ := Bits.le_orShift 16 _
      _ ≤ _ := Bits.le_orShift 32 _
  · rw [nextPowerOf2, if_neg hnot]
    rfl

theorem le_nextPowerOf2 (n : Int) : n ≤ nextPowerOf2 n := by
  by_cases hn : 0 < n
  · obtain ⟨m, -, hle, heq⟩ := nextPowerOf2_eq hn
    omega
  · have : (0 : Int) ≤ nextPowerOf2 n := Int.natCast_nonneg _
    omega

theorem nextPowerOf2_isPow_iff {n : Int} (hn : 0 < n) :
    (∃ k, nextPowerOf2 n = 2 ^ k) ↔ Bits.NoZeroRun 64 (n - 1).toNat := by
  obtain ⟨m, hwin, hle, heq⟩ := nextPowerOf2_eq hn
  rw [heq]
  exact hwin.succ_eq_two_pow_iff hle

/-! ## The invariant -/

def sizeAt (a : BuddyAllocator) (o : Nat) : Option Nat := (a.blocks.get? o).map Block.size

/-- The blocks are keyed by their offset, have the size of an order, are aligned to it and tile the
    pool. -/
structure Geometry (a : BuddyAllocator) : Prop where
  minPow : ∃ m, a.minBlockSize = 2 ^ m
  pool : a.poolSize = a.minBlockSize * 2 ^ a.maxOrder
  keyed : ∀ o b, a.blocks.get? o = some b → b.offset = o
  sized : ∀ o b, a.blocks.get? o = some b → ∃ k ≤ a.maxOrder, b.size = a.minBlockSize * 2 ^ k
  aligned : ∀ o b, a.blocks.get? o = some b → b.size ∣ o
  tiles : Tiles a.sizeAt a.poolSize

/-- Free list `k` holds each free block of order `k` once and nothing else, the block in hand apart. -/
structure FreeListsOk (a : BuddyAllocator) (hole : Option Nat) : Prop where
  length : a.freeLists.length = a.maxOrder + 1
  nodup : ∀ k, (a.freeList k).Nodup
  mem : ∀ k o, o ∈ a.freeList k ↔ some o ≠ hole ∧
    ∃ b, a.blocks.get? o = some b ∧ b.allocated = false ∧ b.size = a.minBlockSize * 2 ^ k
  hole : ∀ o, hole = some o → ∃ b, a.blocks.get? o = some b ∧ b.allocated = false

/-- The sum of `g` over the allocated blocks. -/
def allocatedSum (a : BuddyAllocator) (g : Block → Int) : Int :=
  a.blocks.sum fun _ b => if b.allocated then g b else 0

structure CountersOk (a : BuddyAllocator) : Prop where
  bytes : a.allocatedBytes = a.allocatedSum fun b => b.size
  count : a.numAllocations = a.allocatedSum fun _ => 1

/-- The invariant with a block in hand. -/
structure Inv (a : BuddyAllocator) (hole : Option Nat) : Prop where
  geometry : a.Geometry
  lists : a.FreeListsOk hole
  counters : a.CountersOk

/-- The representation invariant: no block is in hand. -/
def WellFormed (a : BuddyAllocator) : Prop := a.Inv none

variable {a : BuddyAllocator} {b : Block} {o target : Nat}

theorem Geometry.min_pos (h : a.Geometry) : 0 < a.minBlockSize := by
  obtain ⟨m, hm⟩ := h.minPow
  rw [hm]
  exact Nat.two_pow_pos m

theorem Geometry.order_pos (h : a.Geometry) (k : Nat) : 0 < a.minBlockSize * 2 ^ k :=
  Nat.mul_pos h.min_pos (Nat.two_pow_pos k)

theorem Geometry.sizeAt_eq (hb : a.blocks.get? o = some b) : a.sizeAt o = some b.size := by
  rw [sizeAt, hb]
  rfl

structure BlockOk (a : BuddyAllocator) (o : Nat) (b : Block) : Prop where
  keyed : b.offset = o
  sized : ∃ k ≤ a.maxOrder, b.size = a.minBlockSize * 2 ^ k
  aligned : b.size ∣ o

theorem Geometry.blockOk (h : a.Geometry) (hb : a.blocks.get? o = some b) :
    a.BlockOk o b := ⟨h.keyed o b hb, h.sized o b hb, h.aligned o b hb⟩

theorem Geometry.ofBlocks (hmin : ∃ m, a.minBlockSize = 2 ^ m)
    (hpool : a.poolSize = a.minBlockSize * 2 ^ a.maxOrder)
    (hok : ∀ o b, a.blocks.get? o = some b → a.BlockOk o b) (ht : Tiles a.sizeAt a.poolSize) :
    a.Geometry :=
  ⟨hmin, hpool, fun o b hb => (hok o b hb).keyed, fun o b hb => (hok o b hb).sized,
    fun o b hb => (hok o b hb).aligned, ht⟩

theorem Inv.hole_free (h : a.Inv (some o)) (hb : a.blocks.get? o = some b) : b.allocated = false := by
  obtain ⟨b', hb', hfree⟩ := h.lists.hole o rfl
  exact Option.some.inj (hb'.symm.trans hb) ▸ hfree

theorem Geometry.order_inj (h : a.Geometry) {j : Nat}
    (he : a.minBlockSize * 2 ^ j = a.minBlockSize * 2 ^ k) : j = k := by
  have := Nat.eq_of_mul_eq_mul_left h.min_pos he
  exact Nat.pow_right_injective (le_refl 2) this

theorem Geometry.order_le (h : a.Geometry) (hb : a.blocks.get? o = some b)
    (hsize : b.size = a.minBlockSize * 2 ^ k) : k ≤ a.maxOrder := by
  obtain ⟨j, hj, hsz⟩ := h.sized o b hb
  rwa [h.order_inj (hsize.symm.trans hsz)]

/-! ## Updating the free lists -/

theorem freeList_modifyFree (a : BuddyAllocator) (j k : Nat) (f : List Nat → List Nat) :
    (a.modifyFree j f).freeList k
      = if j = k ∧ k < a.freeLists.length then f (a.freeList k) else a.freeList k := by
  simp only [freeList, modifyFree, getElem?_modify]
  by_cases hk : k < a.freeLists.length
  · rw [getElem?_eq_getElem hk]
    by_cases hj : j = k <;> simp [hj, hk]
  · rw [getElem?_eq_none (by omega)]
    simp [hk]

theorem Geometry.modifyFree (h : a.Geometry) (j : Nat) (f : List Nat → List Nat) :
    (a.modifyFree j f).Geometry := { h with }

theorem CountersOk.modifyFree (h : a.CountersOk) (j : Nat) (f : List Nat → List Nat) :
    (a.modifyFree j f).CountersOk := { h with }

/-- There is a free block of `s` bytes at `o`. -/
def FreeAt (a : BuddyAllocator) (o s : Nat) : Prop :=
  ∃ b, a.blocks.get? o = some b ∧ b.allocated = false ∧ b.size = s

theorem FreeAt.size_eq {s t : Nat} (h : a.FreeAt o s) (h' : a.FreeAt o t) : s = t := by
  obtain ⟨b, hb, -, hs⟩ := h
  obtain ⟨c, hc, -, ht⟩ := h'
  cases hb.symm.trans hc
  exact hs.symm.trans ht

/-- A change of one free list: it is enough to say what becomes of the offsets that are touched. -/
theorem FreeListsOk.modify {a' : BuddyAllocator} {hole hole' : Option Nat} {f : List Nat → List Nat}
    (touched : Nat → Prop) (hf : a.FreeListsOk hole) (hk : k ≤ a.maxOrder)
    (hlists : a'.freeLists = (a.modifyFree k f).freeLists) (hmin : a'.minBlockSize = a.minBlockSize)
    (hmax : a'.maxOrder = a.maxOrder) (hnodup : (f (a.freeList k)).Nodup)
    (hsame : ∀ x, ¬ touched x → (x ∈ f (a.freeList k) ↔ x ∈ a.freeList k) ∧
      a'.blocks.get? x = a.blocks.get? x ∧ some x ≠ hole ∧ some x ≠ hole')
    (hnew : ∀ x, touched x → ∀ j, x ∈ (if k = j then f (a.freeList k) else a.freeList j) ↔
      some x ≠ hole' ∧ a'.FreeAt x (a.minBlockSize * 2 ^ j))
    (hhole : ∀ o, hole' = some o → ∃ b, a'.blocks.get? o = some b ∧ b.allocated = false) :
    a'.FreeListsOk hole' := by
  have hlist : ∀ j, a'.freeList j = if k = j then f (a.freeList k) else a.freeList j := by
    intro j
    rw [freeList, hlists]
    refine (freeList_modifyFree a k j f).trans ?_
    by_cases hj : k = j
    · subst hj
      simp [hf.length, Nat.lt_succ_of_le hk]
    · simp [hj]
  refine ⟨?_, fun j => ?_, fun j x => ?_, hhole⟩
  · rw [hlists, hmax, ← hf.length]
    exact length_modify ..
  · rw [hlist]
    split
    · exact hnodup
    · exact hf.nodup j
  · rw [hlist, hmin]
    by_cases hx : touched x
    · exact hnew x hx j
    · obtain ⟨hiff, hget, hne, hne'⟩ := hsame x hx
      have hmem : x ∈ (if k = j then f (a.freeList k) else a.freeList j) ↔ x ∈ a.freeList j := by
        split
        next hj => exact hj ▸ hiff
        · rfl
      rw [hmem, hf.mem j x, hget]
      simp only [hne, hne', ne_eq, not_false_eq_true, true_and]

theorem popFree_inv (h : a.WellFormed) {rest : List Nat}
    (hl : a.freeList k = o :: rest) : (a.modifyFree k tail).Inv (some o) := by
  obtain ⟨hg, hf, hc⟩ := h
  obtain ⟨-, b, hb, hfree, hsize⟩ := (hf.mem k o).1 (by rw [hl]; exact mem_cons_self)
  have hnd := hf.nodup k
  rw [hl, nodup_cons] at hnd
  refine ⟨hg.modifyFree k _, hf.modify (· = o) (hg.order_le hb hsize) rfl rfl rfl ?_ ?_ ?_ ?_,
    hc.modifyFree k _⟩
  · rw [hl]
    exact hnd.2
  · intro x hx
    rw [hl]
    exact ⟨by simp [hx], rfl, by simp, by simp [hx]⟩
  · rintro x rfl j
    refine iff_of_false (fun hm => ?_) fun hh => hh.1 rfl
    split at hm
    · rw [hl] at hm
      exact hnd.1 hm
    next hj => exact hj (hg.order_inj (FreeAt.size_eq ⟨b, hb, hfree, hsize⟩ ((hf.mem j x).1 hm).2))
  · rintro _ ⟨⟩
    exact ⟨b, hb, hfree⟩

theorem pushFree_inv (h : a.Inv (some o)) (hb : a.blocks.get? o = some b) : (a.pushFree b).WellFormed := by
  have hfree := h.hole_free hb
  obtain ⟨hg, hf, hc⟩ := h
  obtain ⟨k, hk, hsize⟩ := hg.sized o b hb
  have hnot : ∀ j, o ∉ a.freeList j := fun j hm => ((hf.mem j o).1 hm).1 rfl
  rw [pushFree, hsize, sizeToOrder_mul_two_pow hg.min_pos, hg.keyed o b hb]
  refine ⟨hg.modifyFree _ _, hf.modify (· = o) hk rfl rfl rfl ?_ ?_ ?_ (by rintro _ ⟨⟩), hc.modifyFree _ _⟩
  · exact (hf.nodup k).append (nodup_singleton o) (disjoint_singleton.2 (hnot k))
  · intro x hx
    exact ⟨by simp [hx], rfl, by simp [hx], by simp⟩
  · rintro x rfl j
    have hat : a.FreeAt x (a.minBlockSize * 2 ^ j) ↔ k = j := by
      refine ⟨fun hat => hg.order_inj (FreeAt.size_eq ⟨b, hb, hfree, hsize⟩ hat), ?_⟩
      rintro rfl
      exact ⟨b, hb, hfree, hsize⟩
    show _ ↔ _ ∧ a.FreeAt x (a.minBlockSize * 2 ^ j)
    rw [hat]
    split
    next hj => simp [hj]
    next hj => simp [hj, hnot j]

/-! ## Splitting -/

theorem splitOnce_get? (a : BuddyAllocator) (o k : Nat)
    (hb : a.blocks.get? o = some b) (hpos : 0 < a.minBlockSize) (x : Nat) :
    (a.splitOnce o k).blocks.get? x
      = if o = x then some { b with size := a.minBlockSize * 2 ^ k }
        else if o + a.minBlockSize * 2 ^ k = x then
          some { offset := x, size := a.minBlockSize * 2 ^ k }
        else a.blocks.get? x := by
  have hs : 0 < a.minBlockSize * 2 ^ k := Nat.mul_pos hpos (Nat.two_pow_pos k)
  simp only [splitOnce, modifyFree, Nat.shiftLeft_eq, get?_modify, get?_set]
  by_cases hx : o = x
  · subst hx
    rw [if_pos rfl, if_pos rfl, if_neg (by omega), hb]
    rfl
  · rw [if_neg hx, if_neg hx]
    by_cases hx' : o + a.minBlockSize * 2 ^ k = x
    · rw [if_pos hx', if_pos hx', hx']
    · rw [if_neg hx', if_neg hx']

/-- What is known when the block in hand, of order `k + 1`, is about to be cut. -/
theorem Inv.split_facts (h : a.Inv (some o)) (hb : a.blocks.get? o = some b)
    (hsize : b.size = a.minBlockSize * 2 ^ (k + 1)) :
    b.allocated = false ∧ k + 1 ≤ a.maxOrder ∧
      a.sizeAt o = some (a.minBlockSize * 2 ^ k + a.minBlockSize * 2 ^ k) ∧
      a.blocks.get? (o + a.minBlockSize * 2 ^ k) = none := by
  have hg := h.geometry
  have hspos := hg.order_pos k
  have hss : b.size = a.minBlockSize * 2 ^ k + a.minBlockSize * 2 ^ k := by
    rw [hsize, Nat.pow_succ]
    ring
  have hat : a.sizeAt o = some (a.minBlockSize * 2 ^ k + a.minBlockSize * 2 ^ k) := by
    rw [Geometry.sizeAt_eq hb, hss]
  refine ⟨h.hole_free hb, hg.order_le hb hsize, hat, ?_⟩
  -- the upper half starts inside the block, where no other block is
  have := hg.tiles.eq_none_of_mem hat (x := o + a.minBlockSize * 2 ^ k) (by omega) (by omega)
  rwa [sizeAt, Option.map_eq_none_iff] at this

/-- The block at `o` is a live allocation. -/
def Live (a : BuddyAllocator) (o : Nat) (b : Block) : Prop :=
  a.blocks.get? o = some b ∧ b.allocated = true

def SameConfig (a a' : BuddyAllocator) : Prop :=
  a'.minBlockSize = a.minBlockSize ∧ a'.poolSize = a.poolSize ∧ a'.maxOrder = a.maxOrder

/-- A split or a merge: free space of order `k + 1` at `o`, in one piece in the one allocator and in
    two halves in the other. -/
structure Recut (a a' : BuddyAllocator) (o k : Nat) : Prop where
  config : a.SameConfig a'
  old : Tiles.Pair a.sizeAt o (a.minBlockSize * 2 ^ k) (a.minBlockSize * 2 ^ k)
  new : Tiles.Pair a'.sizeAt o (a.minBlockSize * 2 ^ k) (a.minBlockSize * 2 ^ k)
  oldFree : ∀ x c, x = o ∨ x = o + a.minBlockSize * 2 ^ k → a.blocks.get? x = some c → c.allocated = false
  newFree : ∀ x c, x = o ∨ x = o + a.minBlockSize * 2 ^ k → a'.blocks.get? x = some c →
    c.allocated = false ∧ a.BlockOk x c
  same : ∀ x, x ≠ o → x ≠ o + a.minBlockSize * 2 ^ k → a'.blocks.get? x = a.blocks.get? x

section Recut

variable {a' : BuddyAllocator} {o k : Nat}

theorem Recut.geometry (h : a.Recut a' o k) (hg : a.Geometry) : a'.Geometry := by
  obtain ⟨hmin, hpool, hmax⟩ := h.config
  refine .ofBlocks (hmin ▸ hg.minPow) (by rw [hpool, hmin, hmax, hg.pool]) (fun x c hc => ?_) ?_
  · have hok : a.BlockOk x c := by
      by_cases hx : x = o ∨ x = o + a.minBlockSize * 2 ^ k
      · exact (h.newFree x c hx hc).2
      · rw [not_or] at hx
        exact hg.blockOk (h.same x hx.1 hx.2 ▸ hc)
    exact ⟨hok.keyed, by rw [hmin, hmax]; exact hok.sized, hok.aligned⟩
  · rw [hpool]
    refine hg.tiles.recut (hg.order_pos k) (hg.order_pos k) h.old h.new fun x h1 h2 => ?_
    rw [sizeAt, sizeAt, h.same x h1 h2]

theorem Recut.live (h : a.Recut a' o k) (x : Nat) (c : Block) : a'.Live x c ↔ a.Live x c := by
  by_cases hx : x = o ∨ x = o + a.minBlockSize * 2 ^ k
  · constructor
    · exact fun hl => absurd hl.2 (by simp [(h.newFree x c hx hl.1).1])
    · exact fun hl => absurd hl.2 (by simp [h.oldFree x c hx hl.1])
  · rw [not_or] at hx
    rw [Live, Live, h.same x hx.1 hx.2]

end Recut

section

variable (h : a.Inv (some o)) (hb : a.blocks.get? o = some b)
  (hsize : b.size = a.minBlockSize * 2 ^ (k + 1))
include h hb hsize

theorem splitOnce_recut : a.Recut (a.splitOnce o k) o k := by
  obtain ⟨hfree, hk, hat, hnone⟩ := h.split_facts hb hsize
  have hg := h.geometry
  have hget := splitOnce_get? a o k hb hg.min_pos
  have hspos := hg.order_pos k
  have hdvd : a.minBlockSize * 2 ^ k ∣ o := by
    refine dvd_trans (Dvd.intro 2 ?_) (hg.aligned o b hb)
    rw [hsize, Nat.pow_succ, Nat.mul_assoc]
  refine ⟨⟨rfl, rfl, rfl⟩, .inl ⟨hat, by rw [sizeAt, hnone]; rfl⟩, .inr ⟨?_, ?_⟩, ?_, ?_, ?_⟩
  · rw [Geometry.sizeAt_eq ((hget o).trans (if_pos rfl))]
  · rw [Geometry.sizeAt_eq ((hget _).trans ((if_neg (by omega)).trans (if_pos rfl)))]
  · rintro x c (rfl | rfl) hc
    · exact Option.some.inj (hb.symm.trans hc) ▸ hfree
    · rw [hnone] at hc
      cases hc
  · rintro x c (rfl | rfl) hc
    · rw [hget, if_pos rfl] at hc
      cases hc
      exact ⟨hfree, hg.keyed _ b hb, ⟨k, by omega, rfl⟩, hdvd⟩
    · rw [hget, if_neg (by omega), if_pos rfl] at hc
      cases hc
      exact ⟨rfl, rfl, ⟨k, by omega, rfl⟩, Nat.dvd_add_self_right.2 hdvd⟩
  · intro x h1 h2
    rw [hget, if_neg h1.symm, if_neg h2.symm]

theorem splitOnce_lists : (a.splitOnce o k).FreeListsOk (some o) := by
  obtain ⟨hfree, hk, hat, hnone⟩ := h.split_facts hb hsize
  obtain ⟨hg, hf, -⟩ := h
  have hget := splitOnce_get? a o k hb hg.min_pos
  have hspos := hg.order_pos k
  have hnot : ∀ j, o + a.minBlockSize * 2 ^ k ∉ a.freeList j := by
    intro j hm
    obtain ⟨-, c, hc, -⟩ := (hf.mem j _).1 hm
    rw [hnone] at hc
    cases hc
  refine hf.modify (fun x => x = o ∨ x = o + a.minBlockSize * 2 ^ k) (Nat.le_of_succ_le hk)
    (f := (· ++ [o + a.minBlockSize * 2 ^ k])) ?_ rfl rfl ?_ ?_ ?_ ?_
  · simp only [splitOnce, BuddyAllocator.modifyFree, Nat.shiftLeft_eq]
  · exact (hf.nodup k).append (nodup_singleton _) (disjoint_singleton.2 (hnot k))
  · intro x hx
    rw [not_or] at hx
    rw [hget, if_neg (Ne.symm hx.1), if_neg (Ne.symm hx.2)]
    simp [hx.1, hx.2]
  · rintro x (rfl | rfl) j
    · have hx : x ∉ a.freeList j := fun hm => ((hf.mem j x).1 hm).1 rfl
      split
      next hj => simp [hj, hx, Nat.ne_of_gt hg.min_pos]
      · simp [hx]
    · have hupper : (a.splitOnce o k).FreeAt (o + a.minBlockSize * 2 ^ k) (a.minBlockSize * 2 ^ j)
          ↔ k = j := by
        rw [FreeAt, hget, if_neg (by omega), if_pos rfl]
        constructor
        · rintro ⟨c, ⟨⟩, -, hsz⟩
          exact hg.order_inj hsz
        · rintro rfl
          exact ⟨_, rfl, rfl, rfl⟩
      rw [hupper]
      split
      next hj => simp [hj, Nat.ne_of_gt hg.min_pos]
      next hj => simp [hj, hnot j]
  · rintro x ⟨⟩
    exact ⟨_, (hget o).trans (if_pos rfl), hfree⟩

theorem splitOnce_allocatedSum (g : Block → Int) : (a.splitOnce o k).allocatedSum g = a.allocatedSum g := by
  obtain ⟨hfree, -, -, hnone⟩ := h.split_facts hb hsize
  have hspos := h.geometry.order_pos k
  set s := a.minBlockSize * 2 ^ k with hs
  have hset : (a.blocks.set (o + s) { offset := o + s, size := s }).get? o = some b := by
    rw [get?_set_of_ne _ _ (by omega), hb]
  have hblocks : (a.splitOnce o k).blocks
      = (a.blocks.set (o + s) { offset := o + s, size := s }).set o { b with size := s } := by
    simp only [splitOnce, BuddyAllocator.modifyFree, Nat.shiftLeft_eq, ← hs]
    rw [modify_of_some hset]
  have h1 := sum_set_of_some hset { b with size := s }
    fun _ b => if b.allocated then g b else 0
  have h2 := sum_set_of_none hnone { offset := o + s, size := s }
    fun _ b => if b.allocated then g b else 0
  simp only [allocatedSum, hblocks]
  simpa [hfree] using h1.trans (congrArg (· + _) h2)

theorem splitOnce_inv :
    (a.splitOnce o k).Inv (some o) ∧
      (a.splitOnce o k).blocks.get? o = some { b with size := a.minBlockSize * 2 ^ k } := by
  refine ⟨⟨(splitOnce_recut h hb hsize).geometry h.geometry, splitOnce_lists h hb hsize, ?_, ?_⟩, ?_⟩
  · rw [splitOnce_allocatedSum h hb hsize]
    exact h.counters.bytes
  · rw [splitOnce_allocatedSum h hb hsize]
    exact h.counters.count
  · rw [splitOnce_get? a o k hb h.geometry.min_pos, if_pos rfl]

end

/-- The splitting loop brings the block in hand from order `target + n` down to `target`. -/
theorem splitDown_inv {n : Nat} (h : a.Inv (some o))
    (hb : a.blocks.get? o = some b) (hsize : b.size = a.minBlockSize * 2 ^ (target + n)) :
    (splitDown o target n a).Inv (some o) ∧
      (splitDown o target n a).minBlockSize = a.minBlockSize ∧
      (splitDown o target n a).poolSize = a.poolSize ∧
      (splitDown o target n a).maxOrder = a.maxOrder ∧
      (∀ x c, (splitDown o target n a).Live x c ↔ a.Live x c) ∧
      (splitDown o target n a).blocks.get? o
        = some { b with size := a.minBlockSize * 2 ^ target } := by
  induction n generalizing a b with
  | zero =>
    refine ⟨h, rfl, rfl, rfl, fun _ _ => Iff.rfl, ?_⟩
    rw [Nat.add_zero] at hsize
    rw [splitDown, hb, ← hsize]
  | succ n ih =>
    obtain ⟨hinv, hget⟩ := splitOnce_inv (k := target + n) h hb hsize
    obtain ⟨hi, hm, hp, ho, hlive, hfin⟩ :=
      ih (b := { b with size := a.minBlockSize * 2 ^ (target + n) }) hinv hget rfl
    exact ⟨hi, hm, hp, ho,
      fun x c => (hlive x c).trans ((splitOnce_recut (k := target + n) h hb hsize).live x c), hfin⟩

/-! ## Marking a block -/

/-- The allocator with another flag and owner on the block `b` at `o`, and with other counters. -/
def mark (a : BuddyAllocator) (o : Nat) (b : Block) (f : Bool) (r : Option String)
    (bytes count : Int) : BuddyAllocator :=
  { a with
    blocks := a.blocks.set o { b with allocated := f, requestId := r }
    allocatedBytes := bytes
    numAllocations := count }

section Mark

variable {o : Nat} {b : Block} {f : Bool}

theorem Geometry.mark (h : a.Geometry) (hb : a.blocks.get? o = some b) (r : Option String)
    (bytes count : Int) : (a.mark o b f r bytes count).Geometry := by
  refine .ofBlocks h.minPow h.pool (fun x c hx => ?_) ?_
  · rw [BuddyAllocator.mark, get?_set] at hx
    split at hx
    next ho => cases hx; exact ⟨ho ▸ h.keyed o b hb, h.sized o b hb, ho ▸ h.aligned o b hb⟩
    · exact ⟨h.keyed x c hx, h.sized x c hx, h.aligned x c hx⟩
  · have heq : (a.mark o b f r bytes count).sizeAt = a.sizeAt := by
      funext x
      simp only [sizeAt, BuddyAllocator.mark, get?_set]
      split
      next ho => rw [← ho, hb]; rfl
      · rfl
    rw [heq]
    exact h.tiles

theorem allocatedSum_mark (hb : a.blocks.get? o = some b) (hal : b.allocated = !f)
    (r : Option String) (bytes count : Int) {g : Block → Int}
    (hg : ∀ f r, g { b with allocated := f, requestId := r } = g b) :
    (a.mark o b f r bytes count).allocatedSum g = a.allocatedSum g + bif f then g b else - g b := by
  have hsum := sum_set_of_some hb { b with allocated := f, requestId := r }
    fun _ b => if b.allocated then g b else 0
  rw [allocatedSum, allocatedSum, BuddyAllocator.mark]
  cases f <;> simp [hal, hg] at hsum ⊢ <;> omega

theorem Inv.mark (h : a.Inv (bif f then some o else none)) (hb : a.blocks.get? o = some b)
    (hal : b.allocated = !f) (r : Option String) :
    (a.mark o b f r (a.allocatedBytes + bif f then (b.size : Int) else - b.size)
      (a.numAllocations + bif f then 1 else -1)).Inv (bif f then none else some o) := by
  obtain ⟨hg, hf, hc⟩ := h
  refine ⟨hg.mark hb r _ _, ⟨hf.length, hf.nodup, fun k x => ?_, fun x hx => ?_⟩, ⟨?_, ?_⟩⟩
  · show x ∈ a.freeList k ↔ _ ∧ ∃ c, (a.blocks.set o _).get? x = some c ∧ _
    rw [hf.mem k x, get?_set]
    by_cases hx : o = x
    · subst hx
      cases f <;> simp [hb, hal]
    · have hne : some x ≠ some o := fun he => hx (Option.some.inj he).symm
      cases f <;> simp [hx, hne] <;> rfl
  · cases f with
    | true => cases hx
    | false =>
      cases hx
      exact ⟨_, get?_set_self .., rfl⟩
  · rw [allocatedSum_mark hb hal r _ _ fun _ _ => rfl, ← hc.bytes]
    rfl
  · rw [allocatedSum_mark hb hal r _ _ fun _ _ => rfl, ← hc.count]
    rfl

theorem freeLocked_of_live {c : BuddyAllocator} (hb : a.blocks.get? o = some b)
    (hal : b.allocated = true) (hc : coalesceLoop (a.maxOrder + 1) o
      (a.mark o b false none (a.allocatedBytes - b.size) (a.numAllocations - 1)) = .ok c) :
    a.freeLocked o = .ok (true, c) := by
  simp only [freeLocked, hb, hal, Bool.true_eq_false, if_false, coalesce]
  exact congrArg (Except.map fun a => (true, a)) hc

end Mark

/-! ## Allocation -/

theorem findOrder_some (h : a.findOrder target = some k) :
    target ≤ k ∧ k ≤ a.maxOrder ∧ a.freeList k ≠ [] := by
  have hmem := mem_of_find?_eq_some h
  have hne := find?_some h
  rw [mem_range'_1] at hmem
  exact ⟨hmem.1, by omega, by simpa using hne⟩

theorem allocateLocked_found (h : a.WellFormed) (hfind : a.findOrder target = some k) :
    ∃ o b rest, a.freeList k = o :: rest ∧ a.blocks.get? o = some b ∧ b.allocated = false ∧
      b.size = a.minBlockSize * 2 ^ (target + (k - target)) ∧
      (a.modifyFree k tail).Inv (some o) ∧
      ∀ r, a.allocateLocked target r = .ok (some o,
        (splitDown o target (k - target) (a.modifyFree k tail)).mark o
          { b with size := a.minBlockSize * 2 ^ target } true r
          ((splitDown o target (k - target) (a.modifyFree k tail)).allocatedBytes +
            (a.minBlockSize * 2 ^ target : Nat))
          ((splitDown o target (k - target) (a.modifyFree k tail)).numAllocations + 1)) := by
  obtain ⟨htk, -, hne⟩ := findOrder_some hfind
  obtain ⟨o, rest, hl⟩ := exists_cons_of_ne_nil hne
  obtain ⟨-, b, hb, hfree, hsize⟩ := (h.lists.mem k o).1 (by rw [hl]; exact mem_cons_self ..)
  rw [← Nat.add_sub_cancel' htk] at hsize
  have hpop := popFree_inv h hl
  have hb' : (a.modifyFree k tail).blocks.get? o = some b := hb
  obtain ⟨-, -, -, -, -, hget⟩ := splitDown_inv hpop hb' hsize
  refine ⟨o, b, rest, hl, hb, hfree, hsize, hpop, fun r => ?_⟩
  simp only [allocateLocked, hfind, hl, hb', hget]
  rfl

/-- An allocation that finds a free block of a sufficient order returns one cut down to the target
    order and leaves every other live allocation in place; one that finds none changes nothing. -/
theorem allocateLocked_spec (h : a.WellFormed) (target : Nat) (r : Option String) :
    (a.findOrder target = none ∧ a.allocateLocked target r = .ok (none, a)) ∨
    ∃ o b a', a.findOrder target ≠ none ∧ a.allocateLocked target r = .ok (some o, a') ∧
      a'.WellFormed ∧ a.SameConfig a' ∧ b.size = a.minBlockSize * 2 ^ target ∧
      b.requestId = r ∧ (∀ c, ¬ a.Live o c) ∧
      ∀ x c, a'.Live x c ↔ (x = o ∧ c = b) ∨ a.Live x c := by
  cases hfind : a.findOrder target with
  | none =>
    refine .inl ⟨rfl, ?_⟩
    rw [allocateLocked, hfind]
  | some k =>
    right
    obtain ⟨o, b, rest, -, hb, hfree, hsize, hpop, hok⟩ := allocateLocked_found h hfind
    obtain ⟨hinv, hmin, hpool, hmax, hlive, hget⟩ := splitDown_inv hpop hb hsize
    have hdead : ∀ c, ¬ a.Live o c := by
      rintro c ⟨hc, hal⟩
      cases hb.symm.trans hc
      rw [hfree] at hal
      cases hal
    refine ⟨o, { b with
      size := a.minBlockSize * 2 ^ target, allocated := true, requestId := r }, _, by simp, hok r,
      hinv.mark (f := true) hget hfree r, ⟨hmin, hpool, hmax⟩, rfl, rfl, hdead, fun x c => ?_⟩
    rw [Live, mark, get?_set]
    by_cases hx : o = x
    · subst hx
      rw [if_pos rfl]
      constructor
      · rintro ⟨⟨⟩, -⟩
        exact .inl ⟨rfl, rfl⟩
      · rintro (⟨-, rfl⟩ | hc)
        · exact ⟨rfl, rfl⟩
        · exact absurd hc (hdead c)
    · rw [if_neg hx]
      exact (hlive x c).trans ⟨.inr, fun hc => hc.resolve_left (fun he => hx he.1.symm)⟩

/-! ## Coalescing -/

/-- Two free buddies of order `k`, the lower one at `l`: one of them is in hand, the other on its
    free list. -/
structure BuddyPair (a : BuddyAllocator) (l k hole other : Nat) (bl bu : Block) : Prop where
  lower : a.blocks.get? l = some bl
  upper : a.blocks.get? (l + a.minBlockSize * 2 ^ k) = some bu
  lowerSize : bl.size = a.minBlockSize * 2 ^ k
  upperSize : bu.size = a.minBlockSize * 2 ^ k
  lowerFree : bl.allocated = false
  upperFree : bu.allocated = false
  aligned : a.minBlockSize * 2 ^ (k + 1) ∣ l
  places : (hole = l ∧ other = l + a.minBlockSize * 2 ^ k) ∨ (hole = l + a.minBlockSize * 2 ^ k ∧ other = l)

/-- The allocator after the pair has become one block at `l`. -/
def mergeAt (a : BuddyAllocator) (l k other : Nat) : BuddyAllocator :=
  { a.modifyFree k (·.erase other) with
    blocks := (a.blocks.erase (l + a.minBlockSize * 2 ^ k)).modify l
      (fun b => { b with size := b.size * 2 }) }

section Merge

variable {l k hole other : Nat} {bl bu : Block}

section

variable (hg : a.Geometry) (hp : a.BuddyPair l k hole other bl bu)
include hg hp

theorem mergeAt_get? (x : Nat) :
    (a.mergeAt l k other).blocks.get? x
      = if l = x then some { bl with size := a.minBlockSize * 2 ^ (k + 1) }
        else if l + a.minBlockSize * 2 ^ k = x then none else a.blocks.get? x := by
  have hspos := hg.order_pos k
  simp only [mergeAt, get?_modify, get?_erase]
  by_cases hx : l = x
  · subst hx
    rw [if_pos rfl, if_neg (by omega), if_pos rfl, hp.lower, Option.map_some, hp.lowerSize,
      Nat.pow_succ, Nat.mul_assoc]
  · rw [if_neg hx, if_neg hx]

theorem BuddyPair.succ_le_maxOrder : k + 1 ≤ a.maxOrder := by
  have hin := (hg.tiles.inside _ _ (Geometry.sizeAt_eq hp.upper)).2
  rw [hp.upperSize, hg.pool] at hin
  have hle : a.minBlockSize * 2 ^ (k + 1) ≤ a.minBlockSize * 2 ^ a.maxOrder := by
    calc a.minBlockSize * 2 ^ (k + 1) = a.minBlockSize * 2 ^ k + a.minBlockSize * 2 ^ k := by
          rw [Nat.pow_succ]; ring
      _ ≤ _ := by omega
  exact (Nat.pow_le_pow_iff_right (by omega)).1 (Nat.le_of_mul_le_mul_left hle hg.min_pos)

theorem mergeAt_recut : a.Recut (a.mergeAt l k other) l k := by
  have hget := mergeAt_get? hg hp
  have hspos := hg.order_pos k
  refine ⟨⟨rfl, rfl, rfl⟩, .inr ⟨?_, ?_⟩, .inl ⟨?_, ?_⟩, ?_, ?_, ?_⟩
  · rw [Geometry.sizeAt_eq hp.lower, hp.lowerSize]
  · rw [Geometry.sizeAt_eq hp.upper, hp.upperSize]
  · rw [Geometry.sizeAt_eq ((hget l).trans (if_pos rfl)), Nat.pow_succ, ← Nat.mul_assoc, Nat.mul_two]
  · rw [sizeAt, hget, if_neg (by omega), if_pos rfl]
    rfl
  · rintro x c (rfl | rfl) hc
    · exact Option.some.inj (hp.lower.symm.trans hc) ▸ hp.lowerFree
    · exact Option.some.inj (hp.upper.symm.trans hc) ▸ hp.upperFree
  · rintro x c (rfl | rfl) hc
    · rw [hget, if_pos rfl] at hc
      cases hc
      exact ⟨hp.lowerFree, hg.keyed _ bl hp.lower, ⟨k + 1, hp.succ_le_maxOrder hg, rfl⟩, hp.aligned⟩
    · rw [hget, if_neg (by omega), if_pos rfl] at hc
      cases hc
  · intro x h1 h2
    rw [hget, if_neg h1.symm, if_neg h2.symm]

end

theorem mergeAt_lists (h : a.Inv (some hole)) (hp : a.BuddyPair l k hole other bl bu) :
    (a.mergeAt l k other).FreeListsOk (some l) := by
  obtain ⟨hg, hf, -⟩ := h
  have hget := mergeAt_get? hg hp
  have hspos := hg.order_pos k
  have hother : a.FreeAt other (a.minBlockSize * 2 ^ k) := by
    rcases hp.places with ⟨-, rfl⟩ | ⟨-, rfl⟩
    · exact ⟨bu, hp.upper, hp.upperFree, hp.upperSize⟩
    · exact ⟨bl, hp.lower, hp.lowerFree, hp.lowerSize⟩
  have hhalf : ∀ x, x = hole ∨ x = other ↔ x = l ∨ x = l + a.minBlockSize * 2 ^ k := by
    intro x
    rcases hp.places with ⟨rfl, rfl⟩ | ⟨rfl, rfl⟩
    · rfl
    · exact or_comm
  refine hf.modify (fun x => x = hole ∨ x = other) (Nat.le_of_succ_le (hp.succ_le_maxOrder hg)) rfl
    rfl rfl ((hf.nodup k).erase other) ?_ ?_ ?_
  · intro x hx
    have hx' := mt (hhalf x).2 hx
    rw [not_or] at hx hx'
    rw [hget, if_neg (Ne.symm hx'.1), if_neg (Ne.symm hx'.2)]
    simp [mem_erase_of_ne hx.2, hx.1, hx'.1]
  · -- neither half is on a list any more
    intro x hx j
    refine iff_of_false (fun hm => ?_) fun hfree => ?_
    · have hm' : x ∈ a.freeList j := by
        split at hm
        next hj => exact hj ▸ mem_of_mem_erase hm
        · exact hm
      obtain ⟨hne, hat⟩ := (hf.mem j x).1 hm'
      rcases hx with rfl | rfl
      · exact hne rfl
      · rw [if_pos (hg.order_inj (hother.size_eq hat))] at hm
        exact (hf.nodup k).not_mem_erase hm
    · obtain ⟨hne, c, hc, _⟩ := hfree
      rcases (hhalf x).1 hx with rfl | rfl
      · exact hne rfl
      · rw [hget, if_neg (by omega), if_pos rfl] at hc
        cases hc
  · rintro x ⟨⟩
    exact ⟨_, (hget l).trans (if_pos rfl), hp.lowerFree⟩

theorem mergeAt_allocatedSum (hg : a.Geometry) (hp : a.BuddyPair l k hole other bl bu)
    (g : Block → Int) : (a.mergeAt l k other).allocatedSum g = a.allocatedSum g := by
  have hspos := hg.order_pos k
  have herase : (a.blocks.erase (l + a.minBlockSize * 2 ^ k)).get? l = some bl := by
    rw [get?_erase_of_ne _ (by omega), hp.lower]
  have h1 := sum_erase_of_some hp.upper fun _ b => if b.allocated then g b else 0
  have h2 := sum_set_of_some herase { bl with size := bl.size * 2 }
    fun _ b => if b.allocated then g b else 0
  simp only [allocatedSum, mergeAt]
  rw [modify_of_some herase]
  simp only [hp.upperFree, hp.lowerFree, Bool.false_eq_true, if_false, add_zero] at h1 h2 ⊢
  exact h2.trans h1

theorem mergeAt_inv (h : a.Inv (some hole)) (hp : a.BuddyPair l k hole other bl bu) :
    (a.mergeAt l k other).Inv (some l) := by
  refine ⟨(mergeAt_recut h.geometry hp).geometry h.geometry, mergeAt_lists h hp, ?_, ?_⟩
  · rw [mergeAt_allocatedSum h.geometry hp]
    exact h.counters.bytes
  · rw [mergeAt_allocatedSum h.geometry hp]
    exact h.counters.count

end Merge

theorem Geometry.buddy_cases (hg : a.Geometry)
    (hb : a.blocks.get? o = some b) (hsize : b.size = a.minBlockSize * 2 ^ k) :
    (o ^^^ b.size = o + a.minBlockSize * 2 ^ k ∧ a.minBlockSize * 2 ^ (k + 1) ∣ o) ∨
    (∃ l, o = l + a.minBlockSize * 2 ^ k ∧ o ^^^ b.size = l ∧ a.minBlockSize * 2 ^ (k + 1) ∣ l) := by
  obtain ⟨m, hm⟩ := hg.minPow
  have hs : a.minBlockSize * 2 ^ k = 2 ^ (m + k) := by rw [hm, Nat.pow_add]
  have hs' : a.minBlockSize * 2 ^ (k + 1) = 2 ^ (m + k) * 2 := by
    rw [hm, Nat.pow_succ, ← Nat.mul_assoc, ← Nat.pow_add]
  have hdvd : 2 ^ (m + k) ∣ o := by
    have := hg.aligned o b hb
    rwa [hsize, hs] at this
  have hpos : 0 < 2 ^ (m + k) := Nat.two_pow_pos _
  rw [hsize, hs', hs, Bits.xor_two_pow_of_dvd hdvd]
  obtain ⟨q, rfl⟩ := hdvd
  rw [Nat.mul_div_cancel_left _ hpos]
  by_cases hq : q % 2 = 0
  · rw [if_pos hq]
    exact .inl ⟨rfl, Nat.mul_dvd_mul_left _ (Nat.dvd_of_mod_eq_zero hq)⟩
  · rw [if_neg hq]
    refine .inr ⟨2 ^ (m + k) * (q - 1), ?_, ?_, Nat.mul_dvd_mul_left _ (by omega)⟩
    · rw [← Nat.mul_add_one, Nat.sub_add_cancel (by omega)]
    · rw [Nat.mul_sub_one]

/-- A round of the loop of `_coalesce` that merges is `mergeAt` at the lower of the two offsets. -/
theorem merge_round {buddy : Block} (h : a.Inv (some o))
    (hb : a.blocks.get? o = some b) (hsize : b.size = a.minBlockSize * 2 ^ k)
    (hbuddy : a.blocks.get? (o ^^^ b.size) = some buddy) (hfree : buddy.allocated = false)
    (hsize' : buddy.size = b.size) :
    ∃ l bl bu, (a.modifyFree k (·.erase (o ^^^ b.size))).mergeBuddy o (o ^^^ b.size)
        = a.mergeAt l k (o ^^^ b.size) ∧ min (o ^^^ b.size) o = l ∧
      a.BuddyPair l k o (o ^^^ b.size) bl bu := by
  have hg := h.geometry
  have hspos := hg.order_pos k
  have hbfree := h.hole_free hb
  rcases hg.buddy_cases hb hsize with ⟨hx, hal⟩ | ⟨l, hol, hx, hal⟩
  · rw [hx] at hbuddy ⊢
    refine ⟨o, b, buddy, ?_, by omega,
      ⟨hb, hbuddy, hsize, hsize'.trans hsize, hbfree, hfree, hal, .inl ⟨rfl, rfl⟩⟩⟩
    simp only [mergeBuddy, if_neg (show ¬ o + a.minBlockSize * 2 ^ k < o by omega), mergeAt]
    rfl
  · rw [hx] at hbuddy ⊢
    refine ⟨l, buddy, b, ?_, by omega,
      ⟨hbuddy, hol ▸ hb, hsize'.trans hsize, hsize, hfree, hbfree, hal, .inr ⟨hol, rfl⟩⟩⟩
    simp only [mergeBuddy, if_pos (show l < o by omega), mergeAt, ← hol]
    rfl

section

variable (fuel : Nat) (h : a.Inv (some o)) (hb : a.blocks.get? o = some b)
  (hsize : b.size = a.minBlockSize * 2 ^ k)
include fuel h hb hsize

theorem coalesceLoop_round :
    (coalesceLoop (fuel + 1) o a = .ok (a.pushFree b) ∧
      ¬ (b.size < a.poolSize ∧ a.FreeAt (o ^^^ b.size) b.size)) ∨
    ∃ l bl bu, a.BuddyPair l k o (o ^^^ b.size) bl bu ∧
      coalesceLoop (fuel + 1) o a = coalesceLoop fuel l (a.mergeAt l k (o ^^^ b.size)) := by
  simp only [coalesceLoop, hb, h.geometry.keyed o b hb]
  by_cases hlt : b.size < a.poolSize
  · rw [if_pos hlt]
    cases hbuddy : a.blocks.get? (o ^^^ b.size) with
    | none =>
      refine .inl ⟨rfl, fun ⟨_, c, hc, _⟩ => ?_⟩
      rw [hbuddy] at hc
      cases hc
    | some buddy =>
      simp only
      by_cases hstop : buddy.allocated = true ∨ buddy.size ≠ b.size
      · rw [if_pos hstop]
        refine .inl ⟨rfl, fun ⟨_, c, hc, hfree, hsz⟩ => ?_⟩
        rw [hbuddy] at hc
        cases hc
        rcases hstop with hal | hne
        · rw [hfree] at hal
          cases hal
        · exact hne hsz
      · rw [if_neg hstop]
        have hfree : buddy.allocated = false := by
          cases hal : buddy.allocated with
          | false => rfl
          | true => exact absurd (.inl hal) hstop
        have hsize' : buddy.size = b.size := by
          by_contra hne
          exact hstop (.inr hne)
        obtain ⟨l, bl, bu, hmerge, hmin, hp⟩ := merge_round h hb hsize hbuddy hfree hsize'
        have horder : sizeToOrder a.minBlockSize buddy.size = k := by
          rw [hsize', hsize, sizeToOrder_mul_two_pow h.geometry.min_pos]
        have hmem : o ^^^ b.size ∈ a.freeList k := by
          refine (h.lists.mem k _).2 ⟨fun he => ?_, buddy, hbuddy, hfree, hsize'.trans hsize⟩
          have := Option.some.inj he
          have hspos := h.geometry.order_pos k
          rcases hp.places with ⟨h1, h2⟩ | ⟨h1, h2⟩ <;> omega
        rw [horder, if_pos hmem, hmerge, hmin]
        exact .inr ⟨l, bl, bu, hp, rfl⟩
  · rw [if_neg hlt]
    exact .inl ⟨rfl, fun hh => hlt hh.1⟩

/-- The loop of `_coalesce` ends, raises nothing and restores the invariant; the live allocations
    stay as they are. The fuel bounds the orders that are left above the block in hand. -/
theorem coalesceLoop_spec (hfuel : a.maxOrder < k + fuel) :
    ∃ a', coalesceLoop fuel o a = .ok a' ∧ a'.WellFormed ∧ a.SameConfig a' ∧
      ∀ x c, a'.Live x c ↔ a.Live x c := by
  induction fuel generalizing a o k b with
  | zero =>
    have := h.geometry.order_le hb hsize
    omega
  | succ fuel ih =>
    rcases coalesceLoop_round fuel h hb hsize with ⟨hok, -⟩ | ⟨l, bl, bu, hp, hround⟩
    · exact ⟨_, hok, pushFree_inv h hb, ⟨rfl, rfl, rfl⟩, fun _ _ => Iff.rfl⟩
    · obtain ⟨a', hok, hwf, ⟨h1, h2, h3⟩, hlive⟩ := ih (mergeAt_inv h hp)
        (b := { bl with size := a.minBlockSize * 2 ^ (k + 1) }) (k := k + 1)
        (by rw [mergeAt_get? h.geometry hp, if_pos rfl]) rfl
        (show a.maxOrder < k + 1 + fuel by omega)
      exact ⟨a', hround.trans hok, hwf, ⟨h1, h2, h3⟩,
        fun x c => (hlive x c).trans ((mergeAt_recut h.geometry hp).live x c)⟩

end

theorem freeLocked_spec (h : a.WellFormed) (o : Nat) :
    ((∀ b, ¬ a.Live o b) ∧ a.freeLocked o = .ok (false, a)) ∨
    ∃ b a', a.Live o b ∧ a.freeLocked o = .ok (true, a') ∧ a'.WellFormed ∧ a.SameConfig a' ∧
      ∀ x c, a'.Live x c ↔ x ≠ o ∧ a.Live x c := by
  cases hb : a.blocks.get? o with
  | none =>
    refine .inl ⟨fun b hl => ?_, by rw [freeLocked, hb]⟩
    rw [Live, hb] at hl
    cases hl.1
  | some b =>
    cases hal : b.allocated with
    | false =>
      refine .inl ⟨fun c hl => ?_, by simp only [freeLocked, hb, hal, if_true]⟩
      rw [Live, hb] at hl
      cases hl.1
      rw [hal] at hl
      cases hl.2
    | true =>
      right
      have hlive : a.Live o b := ⟨hb, hal⟩
      have hinv := Inv.mark (f := false) h hb hal none
      obtain ⟨k, hk, hsize⟩ := h.geometry.sized o b hb
      obtain ⟨a', hok, hwf, hcfg, hl⟩ := coalesceLoop_spec (a.maxOrder + 1) hinv
        (b := { b with allocated := false, requestId := none }) (get?_set_self ..) hsize
        (show a.maxOrder < k + (a.maxOrder + 1) by omega)
      refine ⟨b, a', hlive, freeLocked_of_live hb hal hok, hwf, hcfg, fun x c => ?_⟩
      rw [hl, Live, mark, get?_set]
      by_cases hx : o = x
      · subst hx
        rw [if_pos rfl]
        constructor
        · rintro ⟨⟨⟩, ⟨⟩⟩
        · rintro ⟨hne, -⟩
          exact absurd rfl hne
      · rw [if_neg hx]
        exact ⟨fun hc => ⟨Ne.symm hx, hc⟩, And.right⟩

/-! ## Construction and runs -/

theorem new_eq_ok {poolSize minBlockSize : Int} {a₀ : BuddyAllocator}
    (h : new poolSize minBlockSize = .ok a₀) :
    0 < minBlockSize ∧ (∃ m, minBlockSize.toNat = 2 ^ m) ∧
      a₀.minBlockSize = minBlockSize.toNat ∧
      a₀.poolSize = nextPowerOf2 (max poolSize minBlockSize) ∧
      a₀.maxOrder = sizeToOrder a₀.minBlockSize a₀.poolSize ∧
      a₀.freeLists = (replicate (a₀.maxOrder + 1) []).set a₀.maxOrder [0] ∧
      a₀.blocks = Dict.empty.set 0 { offset := 0, size := a₀.poolSize } ∧
      a₀.allocatedBytes = 0 ∧ a₀.numAllocations = 0 := by
  unfold new at h
  simp only at h
  split at h
  · cases h
  next hok =>
    rw [not_or, not_not] at hok
    cases h
    exact ⟨by omega, Bits.exists_two_pow_of_and_pred (by omega) hok.2, rfl, rfl, rfl, rfl, rfl, rfl, rfl⟩

theorem wellFormed_of_root (hmin : ∃ m, a.minBlockSize = 2 ^ m)
    (hpool : a.poolSize = a.minBlockSize * 2 ^ a.maxOrder)
    (hlists : a.freeLists = (replicate (a.maxOrder + 1) []).set a.maxOrder [0])
    (hblocks : a.blocks = Dict.empty.set 0 { offset := 0, size := a.poolSize })
    (hbytes : a.allocatedBytes = 0) (hcount : a.numAllocations = 0) : a.WellFormed := by
  have hminpos : 0 < a.minBlockSize := by
    obtain ⟨m, hm⟩ := hmin
    rw [hm]
    exact Nat.two_pow_pos m
  have hget : ∀ x, a.blocks.get? x
      = if 0 = x then some { offset := 0, size := a.poolSize } else none := by
    intro x
    rw [hblocks, get?_set, get?_empty]
  have hlist : ∀ k, a.freeList k = if k = a.maxOrder then [0] else [] := by
    intro k
    rw [freeList, hlists, getElem?_set, length_replicate]
    by_cases hk : k = a.maxOrder
    · simp [hk]
    · rw [if_neg (Ne.symm hk), if_neg hk, getElem?_replicate]
      split <;> rfl
  refine ⟨.ofBlocks hmin hpool (fun o b hb => ?_) ?_, ⟨?_, ?_, ?_, by rintro _ ⟨⟩⟩, ⟨?_, ?_⟩⟩
  · rw [hget] at hb
    split at hb
    next ho => cases hb; exact ⟨ho, ⟨a.maxOrder, le_refl _, hpool⟩, ho ▸ Nat.dvd_zero _⟩
    · cases hb
  · have heq : a.sizeAt = fun o => if o = 0 then some a.poolSize else none := by
      funext x
      rw [sizeAt, hget]
      by_cases hx : 0 = x
      · rw [if_pos hx, if_pos hx.symm]; rfl
      · rw [if_neg hx, if_neg (Ne.symm hx)]; rfl
    rw [heq]
    exact Tiles.single (by rw [hpool]; exact Nat.mul_pos hminpos (Nat.two_pow_pos _))
  · simp [hlists]
  · intro k
    rw [hlist]
    split <;> simp
  · intro k o
    rw [hlist, hget]
    by_cases ho : 0 = o
    · subst ho
      by_cases hk : k = a.maxOrder
      · simp [hk, hpool]
      · have hne : a.poolSize ≠ a.minBlockSize * 2 ^ k := by
          rw [hpool]
          intro he
          exact hk (Nat.pow_right_injective (le_refl 2) (Nat.eq_of_mul_eq_mul_left hminpos he)).symm
        simp [hk, hne]
    · rw [if_neg ho]
      split <;> simp [Ne.symm ho]
  · rw [hbytes, allocatedSum, hblocks, sum_set_of_none (get?_empty 0)]
    rfl
  · rw [hcount, allocatedSum, hblocks, sum_set_of_none (get?_empty 0)]
    rfl

/-- The constructed pool is well formed exactly when its size has come out a power of two. -/
theorem new_wellFormed_iff {poolSize minBlockSize : Int} {a₀ : BuddyAllocator}
    (h : new poolSize minBlockSize = .ok a₀) :
    a₀.WellFormed ↔ Bits.NoZeroRun 64 (max poolSize minBlockSize - 1).toNat := by
  obtain ⟨hpos, ⟨m, hm⟩, hmin, hpool, hmax, hlists, hblocks, hbytes, hcount⟩ := new_eq_ok h
  rw [← nextPowerOf2_isPow_iff (by omega), ← hpool]
  constructor
  · intro hwf
    obtain ⟨k, -, hk⟩ := hwf.geometry.sized 0 _ (by rw [hblocks, get?_set_self])
    exact ⟨m + k, by rw [Nat.pow_add, ← hm, ← hmin, ← hk]⟩
  · rintro ⟨p, hp⟩
    have hle : a₀.minBlockSize ≤ a₀.poolSize := by
      have := le_nextPowerOf2 (max poolSize minBlockSize)
      omega
    have hmp : m ≤ p := by
      rw [hmin, hm, hp] at hle
      exact (Nat.pow_le_pow_iff_right (by omega)).1 hle
    have hsize : a₀.poolSize = a₀.minBlockSize * 2 ^ (p - m) := by
      rw [hp, hmin, hm, ← Nat.pow_add, Nat.add_sub_cancel' hmp]
    have horder : a₀.maxOrder = p - m := by
      rw [hmax, hsize, sizeToOrder_mul_two_pow (by omega)]
    exact wellFormed_of_root ⟨m, hmin.trans hm⟩ (horder ▸ hsize) hlists hblocks hbytes hcount

theorem WellFormed.live_disjoint (h : a.WellFormed) {o' : Nat} {b' : Block}
    (hl : a.Live o b) (hl' : a.Live o' b') (hne : o ≠ o') :
    o + b.size ≤ o' ∨ o' + b'.size ≤ o := by
  have ht := h.geometry.tiles
  have hs := Geometry.sizeAt_eq hl.1
  have hs' := Geometry.sizeAt_eq hl'.1
  have hpos := (ht.inside o _ hs).1
  have hpos' := (ht.inside o' _ hs').1
  by_contra hover
  exact hne (ht.disjoint o _ o' _ (max o o') hs hs' (by omega) (by omega) (by omega) (by omega))

/-- The order of the block that serves a request of `size` bytes. -/
def slotOrder (a : BuddyAllocator) (size : Int) : Nat :=
  sizeToOrder a.minBlockSize (max (nextPowerOf2 size) a.minBlockSize)

/-- The size of the block that serves a request of `size` bytes. -/
def slotSize (a : BuddyAllocator) (size : Int) : Nat := a.minBlockSize * 2 ^ a.slotOrder size

/-- Some free block has the order of the request or a larger one. -/
def HasRoom (a : BuddyAllocator) (size : Int) : Prop := a.findOrder (a.slotOrder size) ≠ none

instance (a : BuddyAllocator) (size : Int) : Decidable (a.HasRoom size) :=
  inferInstanceAs (Decidable (_ ≠ _))

theorem le_slotSize (h : a.WellFormed) (size : Int) : size ≤ a.slotSize size := by
  have h1 := le_nextPowerOf2 size
  have h2 := le_sizeToOrder h.geometry.min_pos (max (nextPowerOf2 size) a.minBlockSize)
  unfold slotSize slotOrder
  omega

theorem findOrder_of_gt (h : a.maxOrder < target) : a.findOrder target = none := by
  rw [findOrder, show a.maxOrder + 1 - target = 0 by omega]
  rfl

section

variable (h : a.WellFormed)
include h

/-- `allocate` on a positive size returns `none` and changes nothing if there is no room, else a
    block of the size's order, and it leaves every other live allocation in place. -/
theorem allocate_spec {size : Int} (hsize : 0 < size) (r : Option String) :
    (¬ a.HasRoom size ∧ a.allocate size r = .ok (none, a)) ∨
    ∃ o b a', a.HasRoom size ∧ a.allocate size r = .ok (some o, a') ∧ a'.WellFormed ∧
      a.SameConfig a' ∧ b.size = a.slotSize size ∧ b.requestId = r ∧ (∀ c, ¬ a.Live o c) ∧
      ∀ x c, a'.Live x c ↔ (x = o ∧ c = b) ∨ a.Live x c := by
  rw [allocate, if_neg (by omega), HasRoom]
  simp only
  split
  next hgt => exact .inl ⟨not_not.2 (findOrder_of_gt hgt), rfl⟩
  · rcases allocateLocked_spec h (a.slotOrder size) r with
      ⟨hno, hnone⟩ | ⟨o, b, a', hroom, hok, hwf, hcfg, hb, hreq, hnew, hlive⟩
    · exact .inl ⟨not_not.2 hno, hnone⟩
    · exact .inr ⟨o, b, a', hroom, hok, hwf, hcfg, hb, hreq, hnew, hlive⟩

/-- `free` changes nothing, or ends exactly the live allocation at its offset. -/
theorem free_spec (offset : Int) :
    a.free offset = .ok (false, a) ∨
    ∃ o a', offset = Int.ofNat o ∧ a.free offset = .ok (true, a') ∧ a'.WellFormed ∧
      a.SameConfig a' ∧ ∀ x c, a'.Live x c ↔ x ≠ o ∧ a.Live x c := by
  cases offset with
  | ofNat o =>
    rcases freeLocked_spec h o with ⟨-, hno⟩ | ⟨b, a', -, hok, hwf, hcfg, hlive⟩
    · exact .inl hno
    · exact .inr ⟨o, a', rfl, hok, hwf, hcfg, hlive⟩
  | negSucc n => exact .inl rfl

theorem step_keeps (op : Op) : (a.step op).WellFormed ∧ a.SameConfig (a.step op) := by
  have hsame : a.WellFormed ∧ a.SameConfig a := ⟨h, rfl, rfl, rfl⟩
  cases op with
  | allocate size r =>
    by_cases hsize : 0 < size
    · rcases allocate_spec h hsize r with ⟨-, hno⟩ | ⟨o, b, a', -, hok, hwf, hcfg, -⟩
      · simp only [step, hno]; exact hsame
      · simp only [step, hok]; exact ⟨hwf, hcfg⟩
    · simp only [step, allocate, if_pos (show size ≤ 0 by omega)]; exact hsame
  | free offset =>
    rcases free_spec h offset with hno | ⟨o, a', -, hok, hwf, hcfg, -⟩
    · simp only [step, hno]; exact hsame
    · simp only [step, hok]; exact ⟨hwf, hcfg⟩

theorem step_wellFormed (op : Op) : (a.step op).WellFormed := (step_keeps h op).1

theorem run_wellFormed (ops : List Op) : (a.run ops).WellFormed := by
  induction ops generalizing a with
  | nil => exact h
  | cons op ops ih => exact ih (step_wellFormed h op)

end

/-- What callers rely on in a state: the representation invariant, live allocations that are
    apart, a block of at least the requested size from every successful `allocate`, and no
    exception but the one on a size that is not positive. -/
structure Sound (a : BuddyAllocator) : Prop where
  wellFormed : a.WellFormed
  apart : ∀ o o' b b', a.Live o b → a.Live o' b' → o ≠ o' → o + b.size ≤ o' ∨ o' + b'.size ≤ o
  large : ∀ size r o a', a.allocate size r = .ok (some o, a') → ∃ b, a'.Live o b ∧ size ≤ b.size
  allocates : ∀ size r, 0 < size → ∃ res, a.allocate size r = .ok res
  frees : ∀ offset, ∃ res, a.free offset = .ok res

theorem WellFormed.sound (h : a.WellFormed) : a.Sound where
  wellFormed := h
  apart _ _ _ _ hl hl' hne := h.live_disjoint hl hl' hne
  large size r o a' hok := by
    by_cases hsize : 0 < size
    · rcases allocate_spec h hsize r with ⟨-, hno⟩ | ⟨o', b, a'', -, hok', -, -, hb, -, -, hlive⟩
      · rw [hno] at hok
        cases hok
      · rw [hok'] at hok
        cases hok
        exact ⟨b, (hlive o b).2 (.inl ⟨rfl, rfl⟩), hb ▸ le_slotSize h size⟩
    · rw [allocate, if_pos (by omega)] at hok
      cases hok
  allocates size r hsize := by
    rcases allocate_spec h hsize r with ⟨-, hno⟩ | ⟨o, b, a', -, hok, -⟩
    · exact ⟨_, hno⟩
    · exact ⟨_, hok⟩
  frees offset := by
    rcases free_spec h offset with hno | ⟨o, a', -, hok, -⟩
    · exact ⟨_, hno⟩
    · exact ⟨_, hok⟩

/-- **The representation invariant holds in every state of every run exactly when the rounded pool
    size is a power of two**: when the larger of `pool_size` and `min_block_size`, less one, has no
    64 consecutive zero bits below its leading bit. -/
theorem run_sound_iff_noZeroRun {poolSize minBlockSize : Int} {a₀ : BuddyAllocator}
    (h : new poolSize minBlockSize = .ok a₀) :
    (∀ ops, (a₀.run ops).Sound) ↔ Bits.NoZeroRun 64 (max poolSize minBlockSize - 1).toNat := by
  rw [← new_wellFormed_iff h]
  constructor
  · intro hall
    exact (hall []).wellFormed
  · intro hwf ops
    exact (run_wellFormed hwf ops).sound

/-- The invariant over every run of a pool of four blocks of 256 bytes. -/
theorem run_sound_four_blocks : ∃ a₀, new 1024 256 = .ok a₀ ∧ ∀ ops, (a₀.run ops).Sound := by
  refine ⟨_, rfl, (@run_sound_iff_noZeroRun 1024 256 _ rfl).2 ?_⟩
  exact Bits.noZeroRun_of_lt (by decide)

/-- A pool of `2 ^ 64 + 1` bytes with blocks of one byte is accepted, and its root block of
    `2 ^ 65 - 1` bytes has the size of no order. -/
theorem run_not_sound_two_pow_64 : ∃ a₀, new (2 ^ 64 + 1) 1 = .ok a₀ ∧ ¬ (a₀.run []).Sound := by
  refine ⟨_, rfl, fun hs => ?_⟩
  have hz := (@new_wellFormed_iff (2 ^ 64 + 1) 1 _ rfl).1 hs.wellFormed
  exact hz 0 (by decide) (by decide)

end BuddyAllocator
