import Mathlib

set_option autoImplicit false

/-! # Extending requests by pages

`alloc_extend_naive` and `alloc_extend_kernel` of `mem_cache/allocator.py`, and `get_num_new_pages`. A request
is extended from `prefix_len` to `seq_len` tokens: the rest of its last page is filled first, then fresh pages
from the free list. Both are modelled by the writes to `out_indices` they make. -/

open List

namespace PagedAllocator

structure Request where
  prefixLen : Nat
  seqLen : Nat
  lastLoc : Int
  le : prefixLen ≤ seqLen

/-- `(n + page_size - 1) // page_size`. -/
def numPages (pageSize n : Nat) : Nat := (n + pageSize - 1) / pageSize

namespace Request

variable (pageSize : Nat) (r : Request)

def extendLen : Nat := r.seqLen - r.prefixLen

def numNewPages : Nat := numPages pageSize r.seqLen - numPages pageSize r.prefixLen

/-- The tokens that go to the old partial page. -/
def numPart1 : Nat := min r.seqLen (numPages pageSize r.prefixLen * pageSize) - r.prefixLen

end Request

/-- `get_num_new_pages`, not for decoding. -/
def getNumNewPages (pageSize : Nat) (reqs : List Request) : Nat := (reqs.map (·.numNewPages pageSize)).sum

/-! ## The two implementations -/

/-- Writes of a value to a cell of `out_indices`. -/
abbrev Writes := List (Nat × Int)

/-- `out_indices[start:stop] = values`, which raises when the lengths differ. -/
def assign (start stop : Nat) (values : List Int) : Option Writes :=
  if values.length = stop - start then some (values.mapIdx fun k v => (start + k, v)) else none

/-- A round of the loop of `alloc_extend_naive`; an empty slice assigns nothing. -/
def naiveRequest (pageSize : Nat) (freePages : List Nat) (r : Request) (startPos startNewPages : Nat) :
    Option Writes := do
  let endPos := startPos + r.extendLen
  let endNewPages := startNewPages + r.numNewPages pageSize
  let numFullNewPages := r.seqLen / pageSize - numPages pageSize r.prefixLen
  let needPage := r.numNewPages pageSize - numFullNewPages
  let posInPage := range pageSize
  let num1 := r.numPart1 pageSize
  let part1 ← assign startPos (startPos + num1) ((posInPage.take num1).map fun k => r.lastLoc + 1 + (k : Nat))
  if r.prefixLen + num1 = r.seqLen then return part1
  let num2 := numFullNewPages * pageSize
  let pages := (freePages.take (endNewPages - needPage)).drop startNewPages
  let part2 ← assign (startPos + num1) (startPos + num1 + num2)
    (pages.flatMap fun page => posInPage.map fun k => ((page * pageSize + k : Nat) : Int))
  if r.prefixLen + num1 + num2 = r.seqLen then return part1 ++ part2
  let num3 := r.seqLen - r.seqLen / pageSize * pageSize
  let page ← freePages[endNewPages - 1]?
  let part3 ← assign (endPos - num3) endPos ((posInPage.take num3).map fun k => ((page * pageSize + k : Nat) : Int))
  return part1 ++ part2 ++ part3

/-- The loop, with the running sums `start_pos` and `start_new_pages`. -/
def naiveLoop (pageSize : Nat) (freePages : List Nat) : Nat → Nat → List Request → Option Writes
  | _, _, [] => some []
  | startPos, startNewPages, r :: rest => do
    let writes ← naiveRequest pageSize freePages r startPos startNewPages
    let others ← naiveLoop pageSize freePages (startPos + r.extendLen)
      (startNewPages + r.numNewPages pageSize) rest
    return writes ++ others

def allocExtendNaive (pageSize : Nat) (freePages : List Nat) (reqs : List Request) : Option Writes :=
  naiveLoop pageSize freePages 0 0 reqs

/-- What a program of the kernel loads without anything being known of it: what lies outside the free list,
    and the lanes of `seq_lens` and `pre_lens` that a program masks, whose loads name no `other`. -/
structure Unknown where
  outside : Int → Nat
  seqLens : Nat → Nat → Int
  preLens : Nat → Nat → Int

/-- `free_page_ptr + k`. -/
def loadPage (freePages : List Nat) (unknown : Unknown) (k : Int) : Nat :=
  if 0 ≤ k then (freePages[k.toNat]?).getD (unknown.outside k) else unknown.outside k

/-- A lane of `tl.load(ptr + load_offset, mask=load_offset <= pid)`. -/
def loadLane (field : Request → Nat) (reqs : List Request) (masked : Nat → Int) (pid lane : Nat) : Int :=
  ((reqs.take (pid + 1))[lane]?).elim (masked lane) fun r => field r

/-- The three parts of `alloc_extend_kernel`, as the offsets from `out_indices` it stores to. -/
def kernelParts (pageSize : Nat) (freePages : List Nat) (unknown : Unknown) (r : Request)
    (outputStartLoc newPageStartLoc : Int) : List (Int × Int) :=
  let offsetOnePage := range pageSize
  let numPart1 := r.numPart1 pageSize
  let part1 := (offsetOnePage.filter (· < numPart1)).map fun k : Nat =>
    (outputStartLoc + (k : Int), r.lastLoc + 1 + (k : Int))
  if r.prefixLen + numPart1 = r.seqLen then part1
  else
    let numPart2 := r.seqLen / pageSize * pageSize - numPages pageSize r.prefixLen * pageSize
    let numBlocks := (numPart2 + 4096 - 1) / 4096
    let part2 := (range numBlocks).flatMap fun blockId =>
      (((range 4096).map fun k => blockId * 4096 + k).filter (· < numPart2)).map fun offset : Nat =>
        (outputStartLoc + numPart1 + (offset : Int),
          ((loadPage freePages unknown (newPageStartLoc + (offset / pageSize : Nat)) * pageSize
            + offset % pageSize : Nat) : Int))
    if r.prefixLen + numPart1 + numPart2 = r.seqLen then part1 ++ part2
    else
      let numPart3 := r.seqLen - r.seqLen / pageSize * pageSize
      let page := loadPage freePages unknown (newPageStartLoc + r.numNewPages pageSize - 1)
      part1 ++ part2 ++ (offsetOnePage.filter (· < numPart3)).map fun k : Nat =>
        (outputStartLoc + numPart1 + numPart2 + (k : Int), ((page * pageSize + k : Nat) : Int))

/-- `alloc_extend_kernel` for a program id. It does not compile unless the lengths of its two `tl.arange` are
    powers of two. -/
def allocExtendKernel (bsUpper pageSize : Nat) (freePages : List Nat) (unknown : Unknown)
    (reqs : List Request) (pid : Nat) : Option (List (Int × Int)) :=
  if ¬ (bsUpper.isPowerOfTwo ∧ pageSize.isPowerOfTwo) then none
  else
    (reqs[pid]?).map fun r =>
      let seqLens := loadLane Request.seqLen reqs (unknown.seqLens pid) pid
      let preLens := loadLane Request.prefixLen reqs (unknown.preLens pid) pid
      let sumExtendLens := ((range bsUpper).map fun lane => seqLens lane - preLens lane).sum
      let sumNumNewPages := ((range bsUpper).map fun lane =>
        (seqLens lane + pageSize - 1).tdiv pageSize - (preLens lane + pageSize - 1).tdiv pageSize).sum
      kernelParts pageSize freePages unknown r (sumExtendLens - r.extendLen)
        (sumNumNewPages - r.numNewPages pageSize)

/-! ## Where tokens go -/

/-- Where a request's token at position `t` goes. -/
def place (p : Nat) (freePages : List Nat) (r : Request) (startPage t : Nat) : Int :=
  if t < numPages p r.prefixLen * p then r.lastLoc + 1 + (t - r.prefixLen : Nat)
  else (freePages.getD (startPage + (t / p - numPages p r.prefixLen)) 0 * p + t % p : Nat)

/-- The writes for a request whose cells begin at `start` and fresh pages at `startPage`. -/
def placed (p : Nat) (freePages : List Nat) (r : Request) (start startPage : Nat) : Writes :=
  (range r.extendLen).map fun k => (start + k, place p freePages r startPage (r.prefixLen + k))

variable {p i t : Nat} {freePages : List Nat} {r : Request}

theorem le_numPages_mul (hp : 1 ≤ p) (n : Nat) : n ≤ numPages p n * p ∧ numPages p n * p < n + p := by
  have hdiv := Nat.div_add_mod (n + p - 1) p
  have hmod := Nat.mod_lt (n + p - 1) hp
  rw [numPages, Nat.mul_comm]
  omega

theorem numPart1_of_le (hp : 1 ≤ p) (h : r.seqLen ≤ numPages p r.prefixLen * p) :
    r.numPart1 p = r.extendLen ∧ r.numPart1 p ≤ p := by
  have := le_numPages_mul hp r.prefixLen
  rw [Request.numPart1, min_eq_left h, Request.extendLen]
  omega

/-- The sizes of the three parts of a request that goes beyond its old page. -/
structure Parts (p : Nat) (r : Request) : Prop where
  part1 : r.prefixLen + r.numPart1 p = numPages p r.prefixLen * p
  le : r.numPart1 p ≤ p
  full : numPages p r.prefixLen ≤ r.seqLen / p
  extendLen : r.extendLen = r.numPart1 p + (r.seqLen / p - numPages p r.prefixLen) * p + r.seqLen % p
  mod_lt : r.seqLen % p < p
  newPages : r.numNewPages p = r.seqLen / p - numPages p r.prefixLen + if r.seqLen % p = 0 then 0 else 1

theorem parts_of_lt (hp : 1 ≤ p) (h : numPages p r.prefixLen * p < r.seqLen) : Parts p r := by
  obtain ⟨hle, hlt⟩ := le_numPages_mul hp r.prefixLen
  have hnum : r.numPart1 p = numPages p r.prefixLen * p - r.prefixLen := by
    rw [Request.numPart1, min_eq_right h.le]
  have hfull : numPages p r.prefixLen ≤ r.seqLen / p := (Nat.le_div_iff_mul_le hp).2 h.le
  have hdiv := Nat.div_add_mod' r.seqLen p
  refine ⟨by omega, by omega, hfull, ?_, Nat.mod_lt _ hp, ?_⟩
  · have := Nat.mul_le_mul_right p hfull
    rw [Nat.sub_mul, Request.extendLen]
    omega
  · have hpages : numPages p r.seqLen = r.seqLen / p + if r.seqLen % p = 0 then 0 else 1 := by
      rw [numPages]
      split
      next hzero =>
        rw [show r.seqLen + p - 1 = (p - 1) + r.seqLen / p * p by omega, Nat.add_mul_div_right _ _ hp,
          Nat.div_eq_of_lt (by omega), Nat.zero_add, Nat.add_zero]
      · have hlt := Nat.mod_lt r.seqLen hp
        rw [show r.seqLen + p - 1 = (r.seqLen % p - 1) + (r.seqLen / p + 1) * p by rw [Nat.succ_mul]; omega,
          Nat.add_mul_div_right _ _ hp, Nat.div_eq_of_lt (by omega), Nat.zero_add]
    rw [Request.numNewPages, hpages]
    omega

theorem place_fresh (hp : 1 ≤ p) (startPage k : Nat) :
    place p freePages r startPage (numPages p r.prefixLen * p + k)
      = (freePages.getD (startPage + k / p) 0 * p + k % p : Nat) := by
  rw [place, if_neg (by omega), Nat.add_comm _ k, Nat.add_mul_div_right _ _ hp, Nat.add_mul_mod_self_right,
    Nat.add_sub_cancel]

theorem placed_eq_parts (hp : 1 ≤ p) (h : Parts p r) (start startPage : Nat) :
    placed p freePages r start startPage =
      (range (r.numPart1 p)).map (fun k => (start + k, r.lastLoc + 1 + (k : Int))) ++
        (range ((r.seqLen / p - numPages p r.prefixLen) * p)).map (fun k => (start + r.numPart1 p + k,
          ((freePages.getD (startPage + k / p) 0 * p + k % p : Nat) : Int))) ++
        (range (r.seqLen % p)).map (fun k =>
          (start + r.numPart1 p + (r.seqLen / p - numPages p r.prefixLen) * p + k,
            ((freePages.getD (startPage + (r.seqLen / p - numPages p r.prefixLen)) 0 * p + k : Nat) : Int))) := by
  obtain ⟨hpart, -, -, hlen, hmod, -⟩ := h
  rw [placed, hlen, range_add, range_add, map_append, map_append, map_map, map_map]
  refine congrArg₂ (· ++ ·) (congrArg₂ (· ++ ·) ?_ ?_) ?_
  · refine map_congr_left fun k hk => ?_
    have := List.mem_range.1 hk
    rw [place, if_pos (by omega), Nat.add_sub_cancel_left]
  · refine map_congr_left fun k _ => ?_
    rw [Function.comp_apply, ← Nat.add_assoc r.prefixLen, hpart, place_fresh hp, Nat.add_assoc start]
  · refine map_congr_left fun k hk => ?_
    have hlt := (List.mem_range.1 hk).trans hmod
    rw [Function.comp_apply, Nat.add_assoc (r.numPart1 p), ← Nat.add_assoc r.prefixLen, hpart, place_fresh hp,
      Nat.add_comm (_ * p) k, Nat.add_mul_div_right _ _ hp, Nat.div_eq_of_lt hlt, Nat.zero_add,
      Nat.add_mul_mod_self_right, Nat.mod_eq_of_lt hlt]
    simp only [Prod.mk.injEq, and_true]
    omega

/-! ## What the implementations write -/

theorem mapIdx_map_range {α β : Type} (n : Nat) (f : Nat → α) (g : Nat → α → β) :
    ((range n).map f).mapIdx g = (range n).map fun k => g k (f k) := by
  refine ext_getElem (by simp) fun i hi hi' => ?_
  simp

theorem filter_range_lt {m n : Nat} (h : m ≤ n) : ((range n).filter fun k => k < m) = range m := by
  rw [← List.Ico.zero_bot, List.Ico.filter_lt_of_ge h, List.Ico.zero_bot]

theorem flatMap_range_blocks (n b : Nat) :
    ((range n).flatMap fun i => (range b).map fun k => i * b + k) = range (n * b) := by
  induction n with
  | zero => simp
  | succ n ih => rw [range_succ, flatMap_append, ih, Nat.succ_mul, range_add]; simp

theorem assign_map_range {start stop n : Nat} (h : n = stop - start) (f : Nat → Int) :
    assign start stop ((range n).map f) = some ((range n).map fun k => (start + k, f k)) := by
  rw [assign, if_pos (by simpa using h), mapIdx_map_range]

theorem flatMap_pages (hp : 1 ≤ p) {a n : Nat} (h : a + n ≤ freePages.length) :
    (((freePages.take (a + n)).drop a).flatMap fun page => (range p).map fun k => ((page * p + k : Nat) : Int))
      = (range (n * p)).map fun k => ((freePages.getD (a + k / p) 0 * p + k % p : Nat) : Int) := by
  have hpages : (freePages.take (a + n)).drop a = (range n).map fun i => freePages.getD (a + i) 0 := by
    refine ext_getElem (by simp; omega) fun i hi hi' => ?_
    have : a + i < freePages.length := by simp at hi'; omega
    simp [this]
  rw [hpages, flatMap_map, ← flatMap_range_blocks, map_flatMap]
  refine congrArg (flatMap · _) (funext fun i => ?_)
  rw [map_map]
  refine map_congr_left fun k hk => ?_
  have hk := List.mem_range.1 hk
  rw [Function.comp_apply, Nat.add_comm (i * p), Nat.add_mul_div_right _ _ hp, Nat.div_eq_of_lt hk, Nat.zero_add,
    Nat.add_mul_mod_self_right, Nat.mod_eq_of_lt hk]

theorem placed_eq_part1 (hp : 1 ≤ p) (h : r.seqLen ≤ numPages p r.prefixLen * p) (start startPage : Nat) :
    placed p freePages r start startPage
      = (range (r.numPart1 p)).map fun k => (start + k, r.lastLoc + 1 + (k : Int)) := by
  rw [(numPart1_of_le hp h).1, placed]
  refine map_congr_left fun k hk => ?_
  have := List.mem_range.1 hk
  rw [Request.extendLen] at this
  rw [place, if_pos (by omega), Nat.add_sub_cancel_left]

theorem naiveRequest_eq (hp : 1 ≤ p) (start startPage : Nat)
    (h : startPage + r.numNewPages p ≤ freePages.length) :
    naiveRequest p freePages r start startPage = some (placed p freePages r start startPage) := by
  have hassign : ∀ n ≤ p, ∀ s t : Nat, n = t - s → ∀ f : Nat → Int,
      assign s t (((range p).take n).map f) = some ((range n).map fun k => (s + k, f k)) := by
    intro n hn s t hst f
    rw [take_range, min_eq_left hn, assign_map_range hst]
  have hseq := r.le
  rw [naiveRequest]
  by_cases hle : r.seqLen ≤ numPages p r.prefixLen * p
  · obtain ⟨hnum, hnump⟩ := numPart1_of_le hp hle
    rw [Request.extendLen] at hnum
    rw [hassign _ hnump _ _ (by omega), placed_eq_part1 hp hle]
    exact if_pos (by omega)
  · have hparts := parts_of_lt hp (Nat.lt_of_not_le hle)
    have hlen := hparts.extendLen
    have hdiv := Nat.div_add_mod' r.seqLen p
    have hfull := Nat.mul_le_mul_right p hparts.full
    have hnew := hparts.newPages
    have hpart := hparts.part1
    have hsub := Nat.sub_mul (r.seqLen / p) (numPages p r.prefixLen) p
    rw [hassign _ hparts.le _ _ (by omega), placed_eq_parts hp hparts]
    refine (if_neg (by omega)).trans ?_
    rw [show startPage + r.numNewPages p - (r.numNewPages p - (r.seqLen / p - numPages p r.prefixLen))
      = startPage + (r.seqLen / p - numPages p r.prefixLen) by omega, flatMap_pages hp (by omega),
      assign_map_range (by omega)]
    by_cases hzero : r.seqLen % p = 0
    · refine (if_pos (by omega)).trans ?_
      rw [hzero, range_zero, map_nil, append_nil]
      rfl
    · rw [if_neg hzero] at hnew
      refine (if_neg (by omega)).trans ?_
      have hlast : freePages[startPage + r.numNewPages p - 1]?
          = some (freePages.getD (startPage + (r.seqLen / p - numPages p r.prefixLen)) 0) := by
        rw [hnew, ← Nat.add_assoc, Nat.add_sub_cancel, getElem?_eq_getElem (by omega),
          getD_eq_getElem _ _ (by omega)]
      rw [hlast, show r.seqLen - r.seqLen / p * p = r.seqLen % p by omega]
      simp only [Option.bind_eq_bind, Option.bind_some]
      rw [hassign _ hparts.mod_lt.le _ _ (by omega),
        show start + r.extendLen - r.seqLen % p
          = start + r.numPart1 p + (r.seqLen / p - numPages p r.prefixLen) * p by omega]
      rfl

/-- The offsets from `out_indices` of writes. -/
def Writes.offsets (writes : Writes) : List (Int × Int) := writes.map fun w => ((w.1 : Int), w.2)

theorem Writes.offsets_append (writes others : Writes) :
    Writes.offsets (writes ++ others) = writes.offsets ++ others.offsets := map_append ..

theorem Writes.offsets_map_range (n : Nat) (f : Nat → Nat × Int) :
    Writes.offsets ((range n).map f) = (range n).map fun k => (((f k).1 : Int), (f k).2) := by
  rw [Writes.offsets, map_map]
  rfl

theorem kernelParts_eq (hp : 1 ≤ p) (unknown : Unknown) {start startPage : Nat}
    (h : startPage + r.numNewPages p ≤ freePages.length) :
    kernelParts p freePages unknown r start startPage = (placed p freePages r start startPage).offsets := by
  have hseq := r.le
  have hload : ∀ k, k < startPage + r.numNewPages p →
      loadPage freePages unknown (k : Int) = freePages.getD k 0 := by
    intro k hk
    have hlt : k < freePages.length := by omega
    rw [loadPage, if_pos (Int.natCast_nonneg k), Int.toNat_natCast, getElem?_eq_getElem hlt,
      getD_eq_getElem _ _ hlt]
    rfl
  simp only [kernelParts]
  by_cases hle : r.seqLen ≤ numPages p r.prefixLen * p
  · obtain ⟨hnum, hnump⟩ := numPart1_of_le hp hle
    rw [Request.extendLen] at hnum
    rw [if_pos (by omega), filter_range_lt hnump, placed_eq_part1 hp hle, Writes.offsets_map_range]
    rfl
  · have hparts := parts_of_lt hp (Nat.lt_of_not_le hle)
    have hdiv := Nat.div_add_mod' r.seqLen p
    have hfull := Nat.mul_le_mul_right p hparts.full
    have hpart := hparts.part1
    have hnew := hparts.newPages
    have hsub := Nat.sub_mul (r.seqLen / p) (numPages p r.prefixLen) p
    rw [if_neg (by omega), filter_range_lt hparts.le, placed_eq_parts hp hparts, ← hsub,
      Writes.offsets_append, Writes.offsets_append, Writes.offsets_map_range, Writes.offsets_map_range,
      Writes.offsets_map_range]
    -- the blocks of the loop make up the whole part
    have hblocks : ∀ n (f : Nat → Int × Int), ((range ((n + 4096 - 1) / 4096)).flatMap fun b =>
        (((range 4096).map fun k => b * 4096 + k).filter (· < n)).map f) = (range n).map f := by
      intro n f
      rw [← map_flatMap, ← filter_flatMap, flatMap_range_blocks, filter_range_lt (by omega)]
    have hpart2 : ∀ f : Nat → Nat → Int × Int,
        ((range ((r.seqLen / p - numPages p r.prefixLen) * p)).map fun k =>
          f k (loadPage freePages unknown ((startPage : Int) + (k / p : Nat))))
          = (range ((r.seqLen / p - numPages p r.prefixLen) * p)).map fun k =>
            f k (freePages.getD (startPage + k / p) 0) := by
      refine fun f => map_congr_left fun k hk => ?_
      have := Nat.div_lt_of_lt_mul (Nat.mul_comm _ p ▸ List.mem_range.1 hk)
      rw [← Int.natCast_add, hload _ (by omega)]
    rw [hblocks, hpart2 fun k page => ((start : Int) + r.numPart1 p + k, ((page * p + k % p : Nat) : Int))]
    by_cases hzero : r.seqLen % p = 0
    · rw [if_pos (by omega), hzero, range_zero, map_nil, append_nil]
      rfl
    · rw [if_neg hzero] at hnew
      have hlast : (startPage : Int) + r.numNewPages p - 1
          = (startPage + (r.seqLen / p - numPages p r.prefixLen) : Nat) := by
        omega
      rw [if_neg (by omega), hlast, hload _ (by omega), show r.seqLen - r.seqLen / p * p = r.seqLen % p by omega,
        filter_range_lt hparts.mod_lt.le]
      rfl

/-! ## The lanes of a program -/

theorem sum_map_getElem?_elim {α : Type} {l : List α} {n : Nat} (hn : l.length ≤ n) (f : α → Int)
    {masked : Nat → Int} (hmasked : ∀ k, masked k = 0) :
    ((range n).map fun k => (l[k]?).elim (masked k) f).sum = (l.map f).sum := by
  obtain ⟨m, rfl⟩ := Nat.exists_eq_add_of_le hn
  have hread : (range l.length).map (fun k => (l[k]?).elim (masked k) f) = l.map f := by
    refine ext_getElem (by simp) fun k hk _ => ?_
    have hlt : k < l.length := by simpa using hk
    simp [hlt]
  rw [range_add, map_append, sum_append, hread, map_map]
  simp [Function.comp_def, hmasked]

/-- A sum over the lanes is one over the requests up to the program's own, when both loads give the same in
    masked lanes and equal lanes add nothing. -/
theorem sum_lanes {reqs : List Request} {pid n : Nat} (hn : reqs.length ≤ n) {seqLens preLens : Nat → Int}
    (hmasked : ∀ lane, seqLens lane = preLens lane) {f : Int → Int → Int} (hf : ∀ x, f x x = 0) :
    ((range n).map fun lane => f (loadLane Request.seqLen reqs seqLens pid lane)
        (loadLane Request.prefixLen reqs preLens pid lane)).sum
      = ((reqs.take (pid + 1)).map fun r => f r.seqLen r.prefixLen).sum := by
  have hlength : (reqs.take (pid + 1)).length ≤ n := (length_take_le' _ _).trans hn
  rw [← sum_map_getElem?_elim hlength _ (fun lane => hf (seqLens lane))]
  refine congrArg List.sum (map_congr_left fun lane _ => ?_)
  rw [loadLane, loadLane, ← hmasked]
  cases (reqs.take (pid + 1))[lane]? <;> rfl

theorem Request.extendLen_eq (r : Request) : (r.seqLen : Int) - r.prefixLen = r.extendLen := by
  have := r.le
  rw [Request.extendLen]
  omega

theorem Request.numNewPages_eq (hp : 1 ≤ p) (r : Request) :
    ((r.seqLen : Int) + p - 1).tdiv p - ((r.prefixLen : Int) + p - 1).tdiv p = r.numNewPages p := by
  have hpages : ∀ n : Nat, ((n : Int) + p - 1).tdiv p = numPages p n := by
    intro n
    rw [show (n : Int) + p - 1 = (n + p - 1 : Nat) by omega, ← Int.ofNat_tdiv]
    rfl
  have hle : numPages p r.prefixLen ≤ numPages p r.seqLen :=
    Nat.div_le_div_right (Nat.sub_le_sub_right (Nat.add_le_add_right r.le p) 1)
  rw [hpages, hpages, Request.numNewPages, Int.ofNat_sub hle]

/-! ## Batches -/

variable {reqs : List Request}

def startPos (reqs : List Request) (i : Nat) : Nat := ((reqs.take i).map (·.extendLen)).sum

/-- The place in the free list of the first fresh page of a request. -/
def startPage (p : Nat) (reqs : List Request) (i : Nat) : Nat := ((reqs.take i).map (·.numNewPages p)).sum

theorem startPage_add_le {j : Nat} (hi : reqs[i]? = some r) (hij : i < j) :
    startPage p reqs i + r.numNewPages p ≤ startPage p reqs j := by
  have htake : reqs.take (i + 1) = reqs.take i ++ [r] := by rw [take_add_one, hi]; rfl
  have hsum := sum_take_add_sum_drop ((reqs.take j).map (·.numNewPages p)) (i + 1)
  rw [← map_take, take_take, min_eq_left hij, htake] at hsum
  simp only [startPage, map_append, map_cons, map_nil, sum_append, sum_cons, sum_nil] at hsum ⊢
  omega

theorem startPage_add_le_total (hi : reqs[i]? = some r) :
    startPage p reqs i + r.numNewPages p ≤ getNumNewPages p reqs := by
  have hle := startPage_add_le (p := p) hi (List.getElem?_eq_some_iff.1 hi).1
  rwa [startPage, startPage, List.take_length] at hle

def placedAt (p : Nat) (freePages : List Nat) (reqs : List Request) (i : Nat) : Writes :=
  (reqs[i]?).elim [] fun r => placed p freePages r (startPos reqs i) (startPage p reqs i)

/-- What a program may rely on: lengths that `tl.arange` takes, a lane for every request, and the same values
    in the masked lanes of the two loads. -/
structure Launch (p bsUpper : Nat) (reqs : List Request) (unknown : Unknown) : Prop where
  powPage : p.isPowerOfTwo
  powLanes : bsUpper.isPowerOfTwo
  le : reqs.length ≤ bsUpper
  masked : ∀ pid lane, unknown.seqLens pid lane = unknown.preLens pid lane

theorem allocExtendKernel_eq (hp : 1 ≤ p) {bsUpper : Nat} {unknown : Unknown}
    (hlaunch : Launch p bsUpper reqs unknown) (h : getNumNewPages p reqs ≤ freePages.length)
    (hi : i < reqs.length) :
    allocExtendKernel bsUpper p freePages unknown reqs i = some (placedAt p freePages reqs i).offsets := by
  obtain ⟨r, hr⟩ : ∃ r, reqs[i]? = some r := ⟨_, getElem?_eq_getElem hi⟩
  have htake : reqs.take (i + 1) = reqs.take i ++ [r] := by rw [take_add_one, hr]; rfl
  -- the sums over all requests up to this one, without this one
  have hsum : ∀ f : Request → Nat, (((reqs.take (i + 1)).map fun r => (f r : Int)).sum - f r : Int)
      = ((reqs.take i).map f).sum := by
    intro f
    rw [htake, map_append, sum_append, Nat.cast_list_sum, map_map]
    simp [Function.comp_def]
  simp only [allocExtendKernel, if_neg (not_not.2 (And.intro hlaunch.powLanes hlaunch.powPage)), placedAt, hr,
    Option.map_some, Option.elim_some]
  rw [sum_lanes hlaunch.le (hlaunch.masked i) (f := fun a b => a - b) (fun x => sub_self x),
    sum_lanes hlaunch.le (hlaunch.masked i)
      (f := fun a b => (a + p - 1).tdiv p - (b + p - 1).tdiv p) (fun x => sub_self _)]
  simp only [Request.extendLen_eq, Request.numNewPages_eq hp]
  rw [hsum Request.extendLen, hsum (Request.numNewPages p),
    ← kernelParts_eq hp unknown ((startPage_add_le_total hr).trans h)]
  rfl

theorem naiveLoop_eq (hp : 1 ≤ p) (h : getNumNewPages p reqs ≤ freePages.length)
    {done rest : List Request} (hreqs : reqs = done ++ rest) :
    naiveLoop p freePages (done.map (·.extendLen)).sum (done.map (·.numNewPages p)).sum rest
        = some ((range' done.length rest.length).flatMap (placedAt p freePages reqs)) ∧
      ((range' done.length rest.length).flatMap (placedAt p freePages reqs)).map Prod.fst
        = range' (done.map (·.extendLen)).sum (rest.map (·.extendLen)).sum := by
  induction rest generalizing done with
  | nil => exact ⟨rfl, rfl⟩
  | cons r rest ih =>
    obtain ⟨hloop, hcells⟩ := @ih (done ++ [r]) (by rw [hreqs]; simp)
    have hplaced : placedAt p freePages reqs done.length
        = placed p freePages r (done.map (·.extendLen)).sum (done.map (·.numNewPages p)).sum := by
      rw [placedAt, startPos, startPage, hreqs, take_left, getElem?_append_right le_rfl, Nat.sub_self]
      rfl
    have hnew : (done.map (·.numNewPages p)).sum + r.numNewPages p ≤ freePages.length := by
      refine le_trans ?_ h
      simp [getNumNewPages, hreqs]
    simp only [map_append, sum_append, map_cons, map_nil, sum_cons, sum_nil,
      Nat.add_zero, length_append, length_cons, length_nil, Nat.zero_add] at hloop hcells ⊢
    rw [range'_succ, flatMap_cons, hplaced, naiveLoop, naiveRequest_eq hp _ _ hnew, hloop]
    have hfst : (placed p freePages r (done.map (·.extendLen)).sum (done.map (·.numNewPages p)).sum).map
        Prod.fst = range' (done.map (·.extendLen)).sum r.extendLen := by
      rw [placed, map_map, range'_eq_map_range]
      rfl
    exact ⟨rfl, by rw [map_append, hfst, hcells, range'_append_1]⟩

/-- The page of a request's `j`-th page of tokens. -/
def pageOf (p : Nat) (freePages : List Nat) (r : Request) (startPage j : Nat) : Int :=
  if j < numPages p r.prefixLen then r.lastLoc / p
  else freePages.getD (startPage + (j - numPages p r.prefixLen)) 0

/-- `last_loc` stands where the last token of the prefix does in its page. -/
def Request.LastLocOk (p : Nat) (r : Request) : Prop :=
  0 < r.prefixLen → r.lastLoc % p = ((r.prefixLen - 1) % p : Nat)

theorem old_page (hp : 1 ≤ p) (ht : r.prefixLen ≤ t) (hlt : t < numPages p r.prefixLen * p) :
    0 < r.prefixLen ∧ t / p = (r.prefixLen - 1) / p := by
  have hpages := (Nat.div_lt_iff_lt_mul hp).2 hlt
  have hpos : 0 < r.prefixLen := by
    by_contra hzero
    have hnone : numPages p 0 = 0 := Nat.div_eq_of_lt (by omega)
    rw [Nat.eq_zero_of_not_pos hzero, hnone] at hpages
    exact Nat.not_lt_zero _ hpages
  have hnum : numPages p r.prefixLen = (r.prefixLen - 1) / p + 1 := by
    rw [numPages, show r.prefixLen + p - 1 = r.prefixLen - 1 + p by omega, Nat.add_div_right _ hp]
  exact ⟨hpos, le_antisymm (by omega) (Nat.div_le_div_right (by omega))⟩

theorem place_eq (hp : 1 ≤ p) (hlast : r.LastLocOk p) {start : Nat} (ht : r.prefixLen ≤ t) :
    place p freePages r start t = pageOf p freePages r start (t / p) * p + (t % p : Nat) := by
  rw [place, pageOf]
  by_cases hlt : t < numPages p r.prefixLen * p
  · obtain ⟨hpos, hpage⟩ := old_page hp ht hlt
    rw [if_pos hlt, if_pos ((Nat.div_lt_iff_lt_mul hp).2 hlt)]
    have h1 := Nat.div_add_mod' (r.prefixLen - 1) p
    have h2 := Nat.div_add_mod' t p
    have h3 := Int.mul_ediv_add_emod r.lastLoc p
    rw [← hpage] at h1
    rw [hlast hpos, mul_comm] at h3
    omega
  · rw [if_neg hlt, if_neg (mt (Nat.div_lt_iff_lt_mul hp).1 hlt)]
    rfl

theorem mul_add_ediv {m : Nat} (hm : m < p) (a : Int) : (a * p + m) / p = a ∧ (a * p + m) % p = m :=
  (Int.ediv_emod_unique (by omega)).2 ⟨by ring, by omega, by omega⟩

/-- A token of request `i` to place. -/
structure Token (reqs : List Request) (i : Nat) (r : Request) (t : Nat) : Prop where
  req : reqs[i]? = some r
  lower : r.prefixLen ≤ t
  upper : t < r.seqLen

/-- What the places `loc i t` of the tokens satisfy. -/
structure PlacesTokens (p : Nat) (freePages : List Nat) (reqs : List Request) (loc : Nat → Nat → Int) : Prop where
  offset : ∀ i r t, Token reqs i r t → loc i t % p = (t % p : Nat)
  old : ∀ i r t, Token reqs i r t → t < numPages p r.prefixLen * p → loc i t / p = r.lastLoc / p
  fresh : ∀ i r t, Token reqs i r t → numPages p r.prefixLen * p ≤ t →
    ∃ page ∈ freePages.take (getNumNewPages p reqs), loc i t / p = (page : Nat)
  shared : ∀ i r t t', Token reqs i r t → Token reqs i r t' → t / p = t' / p → loc i t / p = loc i t' / p
  all : ∀ page ∈ freePages.take (getNumNewPages p reqs), ∃ i r t, Token reqs i r t ∧
    numPages p r.prefixLen * p ≤ t ∧ loc i t / p = (page : Nat)

/-- Tokens of a request in one page have positions in one page. -/
def SharesPositions (p : Nat) (reqs : List Request) (loc : Nat → Nat → Int) : Prop :=
  ∀ i r t t', Token reqs i r t → Token reqs i r t' → loc i t / p = loc i t' / p → t / p = t' / p

/-- Different requests have no fresh page in common. -/
def FreshApart (p : Nat) (reqs : List Request) (loc : Nat → Nat → Int) : Prop :=
  ∀ i r t j q u, i ≠ j → Token reqs i r t → Token reqs j q u → numPages p r.prefixLen * p ≤ t →
    numPages p q.prefixLen * p ≤ u → loc i t / p ≠ loc j u / p

/-- No request with a prefix ends in one of the pages. -/
def NotHeld (p : Nat) (pages : List Nat) (reqs : List Request) : Prop :=
  ∀ r ∈ reqs, 0 < r.prefixLen → ∀ page ∈ pages, r.lastLoc / p ≠ (page : Nat)

theorem Token.lt_numNewPages (hp : 1 ≤ p) (h : Token reqs i r t)
    (hfresh : numPages p r.prefixLen * p ≤ t) :
    numPages p r.prefixLen ≤ t / p ∧ t / p - numPages p r.prefixLen < r.numNewPages p := by
  have hle := (Nat.le_div_iff_mul_le hp).2 hfresh
  have hlt : t / p < numPages p r.seqLen := (Nat.div_lt_iff_lt_mul hp).2
    (h.upper.trans_le (le_numPages_mul hp r.seqLen).1)
  rw [Request.numNewPages]
  omega

theorem exists_startPage {k : Nat} (hk : k < getNumNewPages p reqs) :
    ∃ i r, reqs[i]? = some r ∧ startPage p reqs i ≤ k ∧ k < startPage p reqs i + r.numNewPages p := by
  induction reqs using reverseRecOn with
  | nil => cases hk
  | append_singleton l r ih =>
    by_cases hl : k < getNumNewPages p l
    · obtain ⟨i, r, hi, hlower, hupper⟩ := ih hl
      have hlt := (List.getElem?_eq_some_iff.1 hi).1
      refine ⟨i, r, by rw [List.getElem?_append_left hlt, hi], ?_⟩
      rw [startPage, List.take_append_of_le_length hlt.le]
      exact ⟨hlower, hupper⟩
    · refine ⟨l.length, r, by simp, ?_⟩
      simp only [getNumNewPages, map_append, sum_append, startPage, take_left] at hk hl ⊢
      simp at hk
      omega

/-- Where the token at position `t` of request `i` goes. -/
def location (p : Nat) (freePages : List Nat) (reqs : List Request) (i t : Nat) : Int :=
  ((reqs[i]?).map fun r => place p freePages r (startPage p reqs i) t).getD 0

theorem Token.location_eq (h : Token reqs i r t) :
    location p freePages reqs i t = place p freePages r (startPage p reqs i) t := by
  rw [location, h.req]
  rfl

theorem Token.location_div_mod (hp : 1 ≤ p) (hlast : ∀ r ∈ reqs, r.LastLocOk p) (h : Token reqs i r t) :
    location p freePages reqs i t / p = pageOf p freePages r (startPage p reqs i) (t / p) ∧
      location p freePages reqs i t % p = (t % p : Nat) := by
  rw [h.location_eq, place_eq hp (hlast r (mem_of_getElem? h.req)) h.lower]
  exact mul_add_ediv (Nat.mod_lt t hp) _

theorem Token.pageOf_fresh (hp : 1 ≤ p) (hfree : getNumNewPages p reqs ≤ freePages.length)
    (h : Token reqs i r t) (hfresh : numPages p r.prefixLen * p ≤ t) :
    startPage p reqs i + (t / p - numPages p r.prefixLen) < getNumNewPages p reqs ∧
      ∃ page, freePages[startPage p reqs i + (t / p - numPages p r.prefixLen)]? = some page ∧
        pageOf p freePages r (startPage p reqs i) (t / p) = (page : Nat) := by
  obtain ⟨hle, hlt⟩ := h.lt_numNewPages hp hfresh
  have htotal := startPage_add_le_total (p := p) h.req
  refine ⟨by omega, _, getElem?_eq_getElem (by omega), ?_⟩
  rw [pageOf, if_neg (by omega), getD_eq_getElem]

section Places

variable (hp : 1 ≤ p) (hlast : ∀ r ∈ reqs, r.LastLocOk p)
include hp hlast

theorem Token.location_old (h : Token reqs i r t) (hlt : t < numPages p r.prefixLen * p) :
    location p freePages reqs i t / p = r.lastLoc / p :=
  (h.location_div_mod hp hlast).1.trans (if_pos ((Nat.div_lt_iff_lt_mul hp).2 hlt))

variable (hfree : getNumNewPages p reqs ≤ freePages.length)
include hfree

theorem Token.location_fresh (h : Token reqs i r t) (hfresh : numPages p r.prefixLen * p ≤ t) :
    ∃ page, (freePages.take (getNumNewPages p reqs))[startPage p reqs i + (t / p - numPages p r.prefixLen)]?
        = some page ∧ location p freePages reqs i t / p = (page : Nat) := by
  obtain ⟨hk, page, hget, hpage⟩ := h.pageOf_fresh hp hfree hfresh
  exact ⟨page, by rw [getElem?_take_of_lt hk, hget], (h.location_div_mod hp hlast).1.trans hpage⟩

theorem placesTokens : PlacesTokens p freePages reqs (location p freePages reqs) := by
  refine ⟨fun i r t h => (h.location_div_mod hp hlast).2, fun i r t h => h.location_old hp hlast,
    fun i r t h hfresh => ?_, fun i r t t' h h' heq => ?_, fun page hpage => ?_⟩
  · obtain ⟨page, hget, hpage⟩ := h.location_fresh hp hlast hfree hfresh
    exact ⟨page, mem_of_getElem? hget, hpage⟩
  · rw [(h.location_div_mod hp hlast).1, (h'.location_div_mod hp hlast).1, heq]
  · obtain ⟨k, hk⟩ := getElem?_of_mem hpage
    have hlt : k < getNumNewPages p reqs := by
      have := (List.getElem?_eq_some_iff.1 hk).1
      rw [length_take] at this
      omega
    obtain ⟨i, r, hi, hlow, hup⟩ := exists_startPage hlt
    -- the first token of the page
    have hpre := (le_numPages_mul hp r.prefixLen).1
    have hseq := (le_numPages_mul hp r.seqLen).2
    rw [Request.numNewPages] at hup
    have hnum : numPages p r.prefixLen + (k - startPage p reqs i) + 1 ≤ numPages p r.seqLen := by omega
    have hmul := Nat.mul_le_mul_right p hnum
    rw [Nat.succ_mul] at hmul
    have hge := Nat.mul_le_mul_right p (Nat.le_add_right (numPages p r.prefixLen) (k - startPage p reqs i))
    have h : Token reqs i r ((numPages p r.prefixLen + (k - startPage p reqs i)) * p) :=
      ⟨hi, by omega, by omega⟩
    obtain ⟨page', hget', hpage'⟩ := h.location_fresh hp hlast hfree hge
    rw [Nat.mul_div_cancel _ hp, Nat.add_sub_cancel_left, Nat.add_sub_cancel' hlow, hk] at hget'
    cases hget'
    exact ⟨i, r, _, h, hge, hpage'⟩

variable (hnodup : (freePages.take (getNumNewPages p reqs)).Nodup)
include hnodup

theorem Token.fresh_inj {j u : Nat} {q : Request} (h : Token reqs i r t) (h' : Token reqs j q u)
    (hfresh : numPages p r.prefixLen * p ≤ t) (hfresh' : numPages p q.prefixLen * p ≤ u)
    (heq : location p freePages reqs i t / p = location p freePages reqs j u / p) :
    startPage p reqs i + (t / p - numPages p r.prefixLen)
      = startPage p reqs j + (u / p - numPages p q.prefixLen) := by
  obtain ⟨page, hk, hpage⟩ := h.location_fresh hp hlast hfree hfresh
  obtain ⟨page', hl, hpage'⟩ := h'.location_fresh hp hlast hfree hfresh'
  rw [hpage, hpage', Int.natCast_inj] at heq
  subst heq
  obtain ⟨hk, rfl⟩ := List.getElem?_eq_some_iff.1 hk
  obtain ⟨hl, heq⟩ := List.getElem?_eq_some_iff.1 hl
  exact ((List.Nodup.getElem_inj_iff hnodup).1 heq).symm

theorem freshApart : FreshApart p reqs (location p freePages reqs) := by
  intro i r t j q u hij h h' hfresh hfresh' heq
  have hkl := h.fresh_inj hp hlast hfree hnodup h' hfresh hfresh' heq
  have hup := (h.lt_numNewPages hp hfresh).2
  have hup' := (h'.lt_numNewPages hp hfresh').2
  rcases Nat.lt_or_gt_of_ne hij with hlt | hlt
  · have := startPage_add_le (p := p) h.req hlt
    omega
  · have := startPage_add_le (p := p) h'.req hlt
    omega

theorem sharesPositions (hheld : NotHeld p (freePages.take (getNumNewPages p reqs)) reqs) :
    SharesPositions p reqs (location p freePages reqs) := by
  -- the old page of a request is not one of the fresh ones
  have hne : ∀ {i r t t'}, Token reqs i r t → Token reqs i r t' → t < numPages p r.prefixLen * p →
      numPages p r.prefixLen * p ≤ t' →
      location p freePages reqs i t / (p : Int) ≠ location p freePages reqs i t' / p := by
    intro i r t t' h h' hlt hfresh
    obtain ⟨page, hget, hpage⟩ := h'.location_fresh hp hlast hfree hfresh
    rw [h.location_old hp hlast hlt, hpage]
    exact hheld r (mem_of_getElem? h.req) (old_page hp h.lower hlt).1 page (mem_of_getElem? hget)
  intro i r t t' h h' heq
  rcases Nat.lt_or_ge t (numPages p r.prefixLen * p) with hlt | hfresh <;>
    rcases Nat.lt_or_ge t' (numPages p r.prefixLen * p) with hlt' | hfresh'
  · rw [(old_page hp h.lower hlt).2, (old_page hp h'.lower hlt').2]
  · exact absurd heq (hne h h' hlt hfresh')
  · exact absurd heq.symm (hne h' h hlt' hfresh)
  · have := h.fresh_inj hp hlast hfree hnodup h' hfresh hfresh' heq
    have := (h.lt_numNewPages hp hfresh).1
    have := (h'.lt_numNewPages hp hfresh').1
    omega

end Places

theorem mapM_kernel {bsUpper : Nat} {unknown : Unknown} (hp : 1 ≤ p) (hlaunch : Launch p bsUpper reqs unknown)
    (hfree : getNumNewPages p reqs ≤ freePages.length) {order : List Nat} (h : ∀ i ∈ order, i < reqs.length) :
    order.mapM (allocExtendKernel bsUpper p freePages unknown reqs)
      = some (order.map fun i => (placedAt p freePages reqs i).offsets) := by
  induction order with
  | nil => rfl
  | cons i order ih =>
    rw [mapM_cons, allocExtendKernel_eq hp hlaunch hfree (h i mem_cons_self),
      ih fun j hj => h j (mem_cons_of_mem _ hj)]
    rfl

/-- **Extending places every token.** With enough free pages the loop and, for a page size it compiles for, the
    kernel, its programs run in any order, write the same, every cell once, and every token lies where its
    position says: at its offset in a page, in the old page as far as that reaches and in a fresh page behind
    it. If the pages used are distinct, requests share none of them; if besides none of them is held by a
    request, tokens of a request are in one page only if their positions are. -/
theorem allocExtend_places (hp : 1 ≤ p) (freePages : List Nat) (reqs : List Request)
    (hlast : ∀ r ∈ reqs, r.LastLocOk p) (hfree : getNumNewPages p reqs ≤ freePages.length) :
    ∃ (writes : Writes) (loc : Nat → Nat → Int), allocExtendNaive p freePages reqs = some writes ∧
      (∀ (bsUpper : Nat) (unknown : Unknown) (order : List Nat), Launch p bsUpper reqs unknown →
        order.Perm (range reqs.length) →
        ∃ stores, order.mapM (allocExtendKernel bsUpper p freePages unknown reqs) = some stores ∧
          stores.flatten.Perm writes.offsets) ∧
      writes.map Prod.fst = range (reqs.map (·.extendLen)).sum ∧
      (∀ i r t, Token reqs i r t → (startPos reqs i + (t - r.prefixLen), loc i t) ∈ writes) ∧
      PlacesTokens p freePages reqs loc ∧
      ((freePages.take (getNumNewPages p reqs)).Nodup → FreshApart p reqs loc) ∧
      ((freePages.take (getNumNewPages p reqs)).Nodup →
        NotHeld p (freePages.take (getNumNewPages p reqs)) reqs → SharesPositions p reqs loc) := by
  obtain ⟨hloop, hcells⟩ := naiveLoop_eq hp hfree (nil_append reqs).symm
  rw [length_nil, ← range_eq_range'] at hloop hcells
  rw [map_nil, sum_nil, ← range_eq_range'] at hcells
  refine ⟨_, location p freePages reqs, hloop, fun bsUpper unknown order hlaunch horder => ?_, hcells,
    fun i r t h => ?_, placesTokens hp hlast hfree, freshApart hp hlast hfree, sharesPositions hp hlast hfree⟩
  · refine ⟨_, mapM_kernel hp hlaunch hfree fun i hi => List.mem_range.1 (horder.mem_iff.1 hi), ?_⟩
    rw [← flatMap_def, Writes.offsets, map_flatMap]
    exact horder.flatMap_right _
  · have hi := List.mem_range.2 (List.getElem?_eq_some_iff.1 h.req).1
    refine List.mem_flatMap.2 ⟨i, hi, ?_⟩
    rw [placedAt, h.req, h.location_eq]
    have ht := h.lower
    have ht' := h.upper
    refine mem_map.2 ⟨t - r.prefixLen, List.mem_range.2 (by rw [Request.extendLen]; omega), ?_⟩
    rw [Nat.add_sub_cancel' ht]

/-- A request that goes on from a page it holds, and a new one. -/
def twoRequests : List Request := [⟨1, 4, 6, by decide⟩, ⟨0, 3, -1, by decide⟩]

theorem allocExtend_places_two :
    ∃ (writes : Writes) (loc : Nat → Nat → Int), allocExtendNaive 2 [7, 8, 9, 5] twoRequests = some writes ∧
      writes.map Prod.fst = range 6 ∧ (5, loc 1 2) ∈ writes ∧ loc 1 2 % 2 = 0 ∧ FreshApart 2 twoRequests loc ∧
      SharesPositions 2 twoRequests loc ∧
      ∃ stores, [1, 0].mapM (allocExtendKernel 2 2 [7, 8, 9, 5] ⟨fun _ => 0, fun _ _ => 4, fun _ _ => 4⟩
        twoRequests) = some stores ∧ stores.flatten.Perm writes.offsets := by
  have hlast : ∀ r ∈ twoRequests, r.LastLocOk 2 := by
    simp [twoRequests, Request.LastLocOk]
  obtain ⟨writes, loc, hnaive, hkernel, hcells, hmem, hplaces, hapart, hshares⟩ :=
    allocExtend_places (p := 2) (by decide) [7, 8, 9, 5] twoRequests hlast (by decide)
  have htoken : Token twoRequests 1 ⟨0, 3, -1, by decide⟩ 2 := ⟨rfl, by decide, by decide⟩
  exact ⟨writes, loc, hnaive, hcells, hmem 1 _ 2 htoken, hplaces.offset 1 _ 2 htoken, hapart (by decide),
    hshares (by decide) (by unfold NotHeld; decide),
    hkernel 2 _ _ ⟨by decide, by decide, by decide, fun _ _ => rfl⟩ (by decide)⟩

def onePageEach : List Request := [⟨0, 2, -1, by decide⟩, ⟨0, 2, -1, by decide⟩]

/-- A page that the free list names twice goes to two requests. -/
theorem doubled_page_not_apart :
    (∀ r ∈ onePageEach, r.LastLocOk 2) ∧ getNumNewPages 2 onePageEach ≤ [3, 3].length ∧
      ∃ writes, allocExtendNaive 2 [3, 3] onePageEach = some writes ∧
        ∀ loc : Nat → Nat → Int, (∀ i r t, Token onePageEach i r t →
            (startPos onePageEach i + (t - r.prefixLen), loc i t) ∈ writes) →
          ¬ FreshApart 2 onePageEach loc := by
  refine ⟨by simp [onePageEach, Request.LastLocOk], by decide, [(0, 6), (1, 7), (2, 6), (3, 7)], by decide,
    fun loc hloc hapart => ?_⟩
  have htoken : ∀ i < 2, Token onePageEach i ⟨0, 2, -1, by decide⟩ 0 := by
    intro i hi
    interval_cases i <;> exact ⟨rfl, by decide, by decide⟩
  have hfirst : loc 0 0 = 6 := by simpa [startPos] using hloc 0 _ 0 (htoken 0 (by decide))
  have hsecond : loc 1 0 = 6 := by
    simpa [startPos, onePageEach, Request.extendLen] using hloc 1 _ 0 (htoken 1 (by decide))
  refine hapart 0 _ 0 1 _ 0 (by decide) (htoken 0 (by decide)) (htoken 1 (by decide)) (by decide) (by decide) ?_
  rw [hfirst, hsecond]

end PagedAllocator
