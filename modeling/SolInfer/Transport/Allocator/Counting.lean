import SolInfer.Transport.Allocator.Coalesce

set_option autoImplicit false

/-! # What `count_free_slots` counts

The free blocks of order `t` and above can be cut into `capacity t` blocks of order `t`. An
allocation of that order lowers the capacity by one and fails at zero, so the capacity is the number
of allocations that succeed in a row. `count_free_slots` divides the sizes of the free blocks by the
rounded slot size instead, which is the same number as long as the quotients are powers of two. -/

namespace BuddyAllocator

variable {a a' : BuddyAllocator} {root t k : Nat} {slotSize : Int}

/-- The number of blocks of order `t` that the free blocks can be cut into. -/
def capacity (a : BuddyAllocator) (t : Nat) : Nat :=
  ∑ k ∈ Finset.Ico t (a.maxOrder + 1), (a.freeList k).length * 2 ^ (k - t)

/-! ## The sum of `count_free_slots` -/

theorem foldl_add_length {α : Type} (l : List α) (q c : Nat) :
    l.foldl (fun count _ => count + q) c = c + l.length * q := by
  induction l generalizing c with
  | nil => simp
  | cons x l ih =>
    rw [List.foldl_cons, ih, List.length_cons]
    ring

theorem foldl_range'_add (g : Nat → Nat) (s n c : Nat) :
    (List.range' s n).foldl (fun count k => count + g k) c = c + ∑ k ∈ Finset.Ico s (s + n), g k := by
  induction n generalizing s c with
  | zero => simp
  | succ n ih =>
    have hsum : ∑ k ∈ Finset.Ico s (s + (n + 1)), g k
        = g s + ∑ k ∈ Finset.Ico (s + 1) (s + 1 + n), g k := by
      rw [Finset.sum_eq_sum_Ico_succ_bot (by omega), show s + 1 + n = s + (n + 1) by omega]
    rw [List.range'_succ, List.foldl_cons, ih, hsum, Nat.add_assoc]

/-- The rounded slot size that `count_free_slots` divides by. -/
def allocSize (a : BuddyAllocator) (slotSize : Int) : Nat := max (nextPowerOf2 slotSize) a.minBlockSize

theorem countFreeSlots_eq (hsize : 0 < slotSize) :
    a.countFreeSlots slotSize = ∑ k ∈ Finset.Ico (a.slotOrder slotSize) (a.maxOrder + 1),
      (a.freeList k).length * (a.minBlockSize * 2 ^ k / a.allocSize slotSize) := by
  have hnot : ¬ slotSize ≤ 0 := by omega
  simp only [countFreeSlots, if_neg hnot, foldl_add_length, foldl_range'_add, Nat.shiftLeft_eq,
    Nat.zero_add]
  refine Finset.sum_congr ?_ fun k _ => rfl
  rw [slotOrder]
  by_cases hle : a.slotOrder slotSize ≤ a.maxOrder + 1
  · rw [slotOrder] at hle
    rw [Nat.add_sub_cancel' hle]
  · rw [slotOrder] at hle
    rw [Finset.Ico_eq_empty (by omega), Finset.Ico_eq_empty (by omega)]

theorem two_pow_le_quotient (hpos : 0 < a.minBlockSize) (hk : a.slotOrder slotSize ≤ k) :
    2 ^ (k - a.slotOrder slotSize) ≤ a.minBlockSize * 2 ^ k / a.allocSize slotSize := by
  have hle : a.allocSize slotSize ≤ a.minBlockSize * 2 ^ a.slotOrder slotSize :=
    le_sizeToOrder hpos _
  have halloc : 0 < a.allocSize slotSize := lt_of_lt_of_le hpos (le_max_right _ _)
  rw [Nat.le_div_iff_mul_le halloc]
  calc 2 ^ (k - a.slotOrder slotSize) * a.allocSize slotSize
      ≤ 2 ^ (k - a.slotOrder slotSize) * (a.minBlockSize * 2 ^ a.slotOrder slotSize) :=
        Nat.mul_le_mul_left _ hle
    _ = a.minBlockSize * (2 ^ (k - a.slotOrder slotSize) * 2 ^ a.slotOrder slotSize) := by ring
    _ = a.minBlockSize * 2 ^ k := by rw [← Nat.pow_add, Nat.sub_add_cancel hk]

/-- Every free block that serves the slot size counts as often as it can be cut. -/
def CountsCuts (a : BuddyAllocator) (slotSize : Int) : Prop :=
  ∀ k ≤ a.maxOrder, a.slotOrder slotSize ≤ k → a.freeList k ≠ [] →
    a.minBlockSize * 2 ^ k < (2 ^ (k - a.slotOrder slotSize) + 1) * a.allocSize slotSize

instance (a : BuddyAllocator) (slotSize : Int) : Decidable (a.CountsCuts slotSize) :=
  inferInstanceAs (Decidable (∀ k ≤ a.maxOrder, _ → _ → _))

theorem countFreeSlots_eq_capacity_iff (hpos : 0 < a.minBlockSize) (hsize : 0 < slotSize) :
    a.countFreeSlots slotSize = a.capacity (a.slotOrder slotSize) ↔ a.CountsCuts slotSize := by
  have halloc : 0 < a.allocSize slotSize := lt_of_lt_of_le hpos (le_max_right _ _)
  have hterm : ∀ k ∈ Finset.Ico (a.slotOrder slotSize) (a.maxOrder + 1),
      (a.freeList k).length * 2 ^ (k - a.slotOrder slotSize)
        ≤ (a.freeList k).length * (a.minBlockSize * 2 ^ k / a.allocSize slotSize) := fun k hk =>
    Nat.mul_le_mul_left _ (two_pow_le_quotient hpos (Finset.mem_Ico.1 hk).1)
  rw [countFreeSlots_eq hsize, capacity, eq_comm, Finset.sum_eq_sum_iff_of_le hterm]
  constructor
  · intro h k hk hle hne
    have heq := h k (Finset.mem_Ico.2 ⟨hle, by omega⟩)
    have hquot := Nat.eq_of_mul_eq_mul_left (List.length_pos_iff.2 hne) heq
    rw [← Nat.div_lt_iff_lt_mul halloc, ← hquot]
    exact Nat.lt_succ_self _
  · intro h k hk
    obtain ⟨hle, hlt⟩ := Finset.mem_Ico.1 hk
    by_cases hne : a.freeList k = []
    · simp [hne]
    · have hup := h k (by omega) hle hne
      rw [← Nat.div_lt_iff_lt_mul halloc] at hup
      have hlow := two_pow_le_quotient hpos hle
      rw [Nat.le_antisymm hlow (Nat.lt_succ_iff.1 hup)]

/-! ## The capacity under an allocation -/

theorem capacity_eq_zero (h : a.findOrder t = none) : a.capacity t = 0 := by
  rw [findOrder_eq_none_iff] at h
  refine Finset.sum_eq_zero fun k hk => ?_
  obtain ⟨hle, hlt⟩ := Finset.mem_Ico.1 hk
  rw [h k hle (by omega)]
  simp

theorem capacity_of_succ (hk : t ≤ k) (hk' : k ≤ a.maxOrder)
    (hmax : a'.maxOrder = a.maxOrder) (hlen : (a'.freeList k).length = (a.freeList k).length + 1)
    (hother : ∀ j, j ≠ k → (a'.freeList j).length = (a.freeList j).length) :
    a'.capacity t = a.capacity t + 2 ^ (k - t) := by
  have hterm : ∀ j ∈ Finset.Ico t (a.maxOrder + 1), (a'.freeList j).length * 2 ^ (j - t)
      = (a.freeList j).length * 2 ^ (j - t) + if j = k then 2 ^ (k - t) else 0 := by
    intro j _
    by_cases hj : j = k
    · rw [if_pos hj, hj, hlen]
      ring
    · rw [if_neg hj, hother j hj, Nat.add_zero]
  rw [capacity, capacity, hmax, Finset.sum_congr rfl hterm, Finset.sum_add_distrib,
    Finset.sum_ite_eq', if_pos (Finset.mem_Ico.2 ⟨hk, by omega⟩)]

section

variable (hlists : a.freeLists.length = a.maxOrder + 1)
include hlists

theorem capacity_popFree {o : Nat} {rest : List Nat} (hk : t ≤ k) (hk' : k ≤ a.maxOrder)
    (hl : a.freeList k = o :: rest) :
    a.capacity t = (a.modifyFree k List.tail).capacity t + 2 ^ (k - t) := by
  refine capacity_of_succ hk hk' rfl ?_ ?_
  · rw [freeList_modifyFree, if_pos ⟨rfl, by omega⟩, hl]
    rfl
  · intro j hj
    rw [freeList_modifyFree, if_neg (fun hh => hj hh.1.symm)]

theorem capacity_splitOnce {o : Nat} (hk : t ≤ k) (hk' : k ≤ a.maxOrder) :
    (a.splitOnce o k).capacity t = a.capacity t + 2 ^ (k - t) := by
  have hl : ∀ j, (a.splitOnce o k).freeList j
      = (a.modifyFree k (· ++ [o + a.minBlockSize <<< k])).freeList j := fun _ => rfl
  refine capacity_of_succ hk hk' rfl ?_ ?_
  · rw [hl, freeList_modifyFree, if_pos ⟨rfl, by omega⟩, List.length_append]
    rfl
  · intro j hj
    rw [hl, freeList_modifyFree, if_neg (fun hh => hj hh.1.symm)]

/-- The splitting loop puts back all but one of the blocks that the taken one can be cut into. -/
theorem capacity_splitDown {o n : Nat} (hn : t + n ≤ a.maxOrder) :
    (splitDown o t n a).capacity t + 1 = a.capacity t + 2 ^ n := by
  induction n generalizing a with
  | zero => rfl
  | succ n ih =>
    have hlists' : (a.splitOnce o (t + n)).freeLists.length
        = (a.splitOnce o (t + n)).maxOrder + 1 := by
      simpa [splitOnce, modifyFree] using hlists
    rw [splitDown, ih hlists' (by show t + n ≤ a.maxOrder; omega),
      capacity_splitOnce hlists (by omega) (by omega), Nat.add_sub_cancel_left, Nat.pow_succ]
    ring

end

theorem allocate_capacity (h : a.WellFormed) {size : Int} (hsize : 0 < size) (r : Option String) :
    (a.capacity (a.slotOrder size) = 0 ∧ a.allocate size r = .ok (none, a)) ∨
    ∃ o c, a.allocate size r = .ok (some o, c) ∧ c.WellFormed ∧
      c.slotOrder size = a.slotOrder size ∧
      c.capacity (a.slotOrder size) + 1 = a.capacity (a.slotOrder size) := by
  rcases allocate_spec h hsize r with ⟨hno, hok⟩ | ⟨o, b, c, hroom, hok, hwf, ⟨hmin, -, hmax⟩, -⟩
  · exact .inl ⟨capacity_eq_zero (not_not.1 hno), hok⟩
  · refine .inr ⟨o, c, hok, hwf, by rw [slotOrder, slotOrder, hmin], ?_⟩
    obtain ⟨k, hfind⟩ := Option.ne_none_iff_exists'.1 hroom
    obtain ⟨htk, hk, -⟩ := findOrder_some hfind
    obtain ⟨x, d, rest, hl, hd, -, hsz, hpop, hfound⟩ := allocateLocked_found h hfind
    obtain ⟨-, -, -, hmax', -⟩ := splitDown_inv hpop hd hsz
    -- the lists of the result are those the splitting loop leaves
    have hcap : c.capacity (a.slotOrder size) = (splitDown x (a.slotOrder size)
        (k - a.slotOrder size) (a.modifyFree k List.tail)).capacity (a.slotOrder size) := by
      have hle : ¬ a.slotOrder size > a.maxOrder := by omega
      have hnot : ¬ size ≤ 0 := by omega
      rw [allocate, if_neg hnot] at hok
      cases ((if_neg hle).symm.trans hok).symm.trans (hfound r)
      rfl
    have hlen : (a.modifyFree k List.tail).freeLists.length
        = (a.modifyFree k List.tail).maxOrder + 1 := by
      simpa [modifyFree] using h.lists.length
    rw [hcap, capacity_splitDown hlen (by show _ ≤ a.maxOrder; omega),
      capacity_popFree h.lists.length htk hk hl]

/-! ## Allocations in a row -/

/-- The state after `n` calls of `allocate(size)` that all succeed. -/
def allocateTimes (size : Int) (r : Option String) : Nat → BuddyAllocator → Option BuddyAllocator
  | 0, a => some a
  | n + 1, a =>
    match a.allocate size r with
    | .ok (some _, c) => allocateTimes size r n c
    | _ => none

/-- `n` calls of `allocate(size)` in a row succeed and the next returns `None`. -/
def FitsExactly (a : BuddyAllocator) (size : Int) (r : Option String) (n : Nat) : Prop :=
  ∃ c c', allocateTimes size r n a = some c ∧ c.allocate size r = .ok (none, c')

theorem Like.fitsExactly_iff (h : Like root a a') (hwf : a'.WellFormed) {size : Int}
    (hsize : 0 < size) (r : Option String) (n : Nat) :
    a.FitsExactly size r n ↔ a'.capacity (a'.slotOrder size) = n := by
  induction n generalizing a a' with
  | zero =>
    obtain ⟨res, c, c', hc, hc', hlike⟩ := h.allocate hwf hsize r
    rcases allocate_capacity hwf hsize r with ⟨hzero, hok⟩ | ⟨o, d, hok, -, -, hcap⟩
    · rw [hok] at hc'
      cases hc'
      exact ⟨fun _ => hzero, fun _ => ⟨a, c, rfl, hc⟩⟩
    · rw [hok] at hc'
      cases hc'
      constructor
      · rintro ⟨e, e', he, he'⟩
        cases he
        rw [hc] at he'
        cases he'
      · intro hzero
        omega
  | succ n ih =>
    obtain ⟨res, c, c', hc, hc', hlike⟩ := h.allocate hwf hsize r
    rcases allocate_capacity hwf hsize r with ⟨hzero, hok⟩ | ⟨o, d, hok, hwf', hslot, hcap⟩
    · rw [hok] at hc'
      cases hc'
      constructor
      · rintro ⟨e, e', he, -⟩
        rw [allocateTimes, hc] at he
        cases he
      · intro hn
        omega
    · rw [hok] at hc'
      cases hc'
      have hih := ih hlike hwf'
      rw [hslot] at hih
      have hstep : a.FitsExactly size r (n + 1) ↔ c.FitsExactly size r n := by
        rw [FitsExactly, FitsExactly, allocateTimes, hc]
      rw [hstep, hih]
      omega

theorem Like.slotOrder_eq (h : Like root a a') (size : Int) : a'.slotOrder size = a.slotOrder size := by
  rw [slotOrder, slotOrder, h.minBlockSize]

theorem Like.capacity_eq (h : Like root a a') (t : Nat) : a'.capacity t = a.capacity t := by
  simp only [capacity, h.freeList_eq, h.maxOrder]

/-- `count_free_slots` answers how many allocations of the slot size succeed in a row, and is zero
    exactly when the next one fails. -/
structure CountExact (a : BuddyAllocator) (slotSize : Int) (r : Option String) : Prop where
  fits : ∀ n, a.countFreeSlots slotSize = n ↔ a.FitsExactly slotSize r n
  fails : (∃ c, a.allocate slotSize r = .ok (none, c)) ↔ a.countFreeSlots slotSize = 0

/-- **`count_free_slots` is exact in a state exactly when each free block that serves the slot size
    counts as often as it can be cut**: the quotient of its size by the rounded slot size is the
    number of its pieces. -/
theorem countFreeSlots_exact_iff {poolSize minBlockSize : Int} {a₀ : BuddyAllocator}
    (h : new poolSize minBlockSize = .ok a₀) (ops : List Op) {slotSize : Int} (hsize : 0 < slotSize)
    (r : Option String) :
    (a₀.run ops).CountExact slotSize r ↔ (a₀.run ops).CountsCuts slotSize := by
  have hwf := run_wellFormed (rounded_wellFormed h) ops
  have hlike := (like_rounded h).run (rounded_wellFormed h) ops
  have hpos : 0 < (a₀.run ops).minBlockSize := hlike.minBlockSize ▸ hwf.geometry.min_pos
  have hfits : ∀ n, (a₀.run ops).FitsExactly slotSize r n ↔
      (a₀.run ops).capacity ((a₀.run ops).slotOrder slotSize) = n := by
    intro n
    rw [hlike.fitsExactly_iff hwf hsize, hlike.slotOrder_eq, hlike.capacity_eq]
  rw [← countFreeSlots_eq_capacity_iff hpos hsize]
  constructor
  · intro hexact
    exact ((hfits _).1 ((hexact.fits _).1 rfl)).symm
  · intro heq
    refine ⟨fun n => by rw [hfits, heq], ?_⟩
    -- a call that fails is a row of no successes
    rw [heq, ← hfits 0]
    constructor
    · rintro ⟨c, hc⟩
      exact ⟨_, c, rfl, hc⟩
    · rintro ⟨c, c', hc, hc'⟩
      cases hc
      exact ⟨c', hc'⟩

/-- In a pool of four blocks of 256 bytes, after one allocation of 300, two slots of 200 bytes are
    counted, and so many fit. -/
theorem countFreeSlots_exact_four_blocks : ∃ a₀, new 1024 256 = .ok a₀ ∧
    (a₀.run [.allocate 300 none]).countFreeSlots 200 = 2 ∧
    (a₀.run [.allocate 300 none]).CountExact 200 none := by
  refine ⟨_, rfl, by decide +kernel, ?_⟩
  exact (@countFreeSlots_exact_iff 1024 256 _ rfl [.allocate 300 none] 200 (by decide) none).2
    (by decide +kernel)

/-- In a pool of `2 ^ 193` bytes a slot of `2 ^ 127 + 1` bytes is rounded to
    `2 ^ 128 - 2 ^ 64 + 1`, and one slot too many is counted. -/
theorem countFreeSlots_not_exact_two_pow_193 : ∃ a₀, new (2 ^ 193) (2 ^ 120) = .ok a₀ ∧
    (a₀.run []).countFreeSlots (2 ^ 127 + 1) = 2 ^ 65 + 1 ∧
    (a₀.run []).FitsExactly (2 ^ 127 + 1) none (2 ^ 65) ∧
    ¬ (a₀.run []).CountExact (2 ^ 127 + 1) none := by
  obtain ⟨a₀, ha₀⟩ : ∃ a₀, new (2 ^ 193) (2 ^ 120) = .ok a₀ := ⟨_, rfl⟩
  have hcount : a₀.countFreeSlots (2 ^ 127 + 1) = 2 ^ 65 + 1 := by
    cases ha₀
    decide +kernel
  have hfits : a₀.FitsExactly (2 ^ 127 + 1) none (2 ^ 65) := by
    rw [(like_rounded ha₀).fitsExactly_iff (rounded_wellFormed ha₀) (by decide)]
    cases ha₀
    decide +kernel
  refine ⟨a₀, ha₀, hcount, hfits, fun hexact => ?_⟩
  have heq := (hexact.fits (2 ^ 65)).2 hfits
  rw [run, List.foldl_nil, hcount] at heq
  exact absurd heq (by decide)

/-- Below `2 ^ 64` bytes, and wherever else the slot size is rounded to a power of two, every count is
    a count of pieces. -/
theorem countsCuts_of_noZeroRun (hmin : ∃ m, a.minBlockSize = 2 ^ m)
    (hsize : 0 < slotSize) (hz : Bits.NoZeroRun 64 (slotSize - 1).toNat) : a.CountsCuts slotSize := by
  obtain ⟨m, hm⟩ := hmin
  obtain ⟨p, hp⟩ := (nextPowerOf2_isPow_iff hsize).2 hz
  have hpos : 0 < a.minBlockSize := by rw [hm]; exact Nat.two_pow_pos m
  have halloc : a.allocSize slotSize = a.minBlockSize * 2 ^ (p - m) := by
    rw [allocSize, hp, hm, ← pow_add, ← (pow_right_mono₀ one_le_two).map_max]
    exact congrArg _ (by omega)
  have hslot : a.slotOrder slotSize = p - m := by
    rw [slotOrder, ← allocSize, halloc, sizeToOrder_mul_two_pow hpos]
  intro k _ hle _
  rw [hslot] at hle ⊢
  have hblock : a.minBlockSize * 2 ^ k = 2 ^ (k - (p - m)) * a.allocSize slotSize := by
    rw [halloc, mul_left_comm, ← pow_add, Nat.sub_add_cancel hle]
  have halloc' : 0 < a.allocSize slotSize := lt_of_lt_of_le hpos (le_max_right _ _)
  rw [hblock]
  exact Nat.mul_lt_mul_of_pos_right (Nat.lt_succ_self _) halloc'

end BuddyAllocator
