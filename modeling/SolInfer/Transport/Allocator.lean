import SolInfer.Lib.Dict
import SolInfer.Lib.Bits
import SolInfer.Lib.Python

set_option autoImplicit false

/-! # The buddy allocator of the transfer buffer

`transport/allocator.py`: a power-of-two buddy allocator over the byte range `[0, poolSize)`. The
blocks are kept in a dictionary keyed by their offset, the free ones also in one list per order
(order `k` holds the blocks of `minBlockSize * 2 ^ k` bytes). `Block` objects are mutated in place
in the source; here a mutation is an update of the dictionary entry of the block. -/

structure Block where
  offset : Nat
  size : Nat
  allocated : Bool := false
  requestId : Option String := none
deriving DecidableEq, Repr

structure BuddyAllocator where
  minBlockSize : Nat
  poolSize : Nat
  maxOrder : Nat
  freeLists : List (List Nat)
  blocks : Dict Nat Block
  allocatedBytes : Int
  numAllocations : Int
deriving DecidableEq

namespace BuddyAllocator

/-! ## Sizes and orders -/

/-- `_next_power_of_2`: the cascade covers 64 bits. -/
def nextPowerOf2 (n : Int) : Nat :=
  if n ≤ 0 then 1
  else
    let n := (n - 1).toNat
    let n := n ||| (n >>> 1)
    let n := n ||| (n >>> 2)
    let n := n ||| (n >>> 4)
    let n := n ||| (n >>> 8)
    let n := n ||| (n >>> 16)
    let n := n ||| (n >>> 32)
    n + 1

/-- The loop of `_size_to_order`; the fuel is the size, which the doubled `s` reaches first. -/
def sizeToOrderLoop (size : Nat) : Nat → Nat → Nat → Nat
  | 0, _, order => order
  | fuel + 1, s, order =>
    if s < size then sizeToOrderLoop size fuel (s <<< 1) (order + 1) else order

/-- `_size_to_order`: the least order whose blocks have at least `size` bytes. -/
def sizeToOrder (minBlockSize size : Nat) : Nat := sizeToOrderLoop size size minBlockSize 0

/-! ## Construction -/

/-- `BuddyAllocator.__init__`. -/
def new (poolSize minBlockSize : Int) : Except PyError BuddyAllocator :=
  let min := minBlockSize.toNat
  if minBlockSize ≤ 0 ∨ min &&& (min - 1) ≠ 0 then
    .error (.valueError s!"min_block_size must be a power of 2, got {minBlockSize}")
  else
    let pool := nextPowerOf2 (max poolSize minBlockSize)
    let maxOrder := sizeToOrder min pool
    .ok {
      minBlockSize := min
      poolSize := pool
      maxOrder := maxOrder
      freeLists := (List.replicate (maxOrder + 1) []).set maxOrder [0]
      blocks := Dict.empty.set 0 { offset := 0, size := pool }
      allocatedBytes := 0
      numAllocations := 0 }

/-! ## Free lists -/

variable (a : BuddyAllocator)

/-- `_free_lists[order]`. -/
def freeList (order : Nat) : List Nat := (a.freeLists[order]?).getD []

/-- Replace `_free_lists[order]` by its image under `f`. -/
def modifyFree (order : Nat) (f : List Nat → List Nat) : BuddyAllocator :=
  { a with freeLists := a.freeLists.modify order f }

/-! ## Allocation -/

/-- The first order from `targetOrder` on with a free block. -/
def findOrder (targetOrder : Nat) : Option Nat :=
  (List.range' targetOrder (a.maxOrder + 1 - targetOrder)).find? fun order => a.freeList order ≠ []

/-- One round of the splitting loop: cut the block at `offset` down to `order` and put its upper
    half on the free list. -/
def splitOnce (offset order : Nat) : BuddyAllocator :=
  let buddySize := a.minBlockSize <<< order
  let buddyOffset := offset + buddySize
  let a := { a with blocks := a.blocks.set buddyOffset { offset := buddyOffset, size := buddySize } }
  let a := a.modifyFree order (· ++ [buddyOffset])
  { a with blocks := a.blocks.modify offset (fun b => { b with size := buddySize }) }

/-- The splitting loop, from order `targetOrder + n` down to `targetOrder`. -/
def splitDown (offset targetOrder : Nat) : Nat → BuddyAllocator → BuddyAllocator
  | 0, a => a
  | n + 1, a => splitDown offset targetOrder n (a.splitOnce offset (targetOrder + n))

def allocateLocked (targetOrder : Nat) (requestId : Option String) :
    Except PyError (Option Nat × BuddyAllocator) :=
  match a.findOrder targetOrder with
  | none => .ok (none, a)
  | some foundOrder =>
    match a.freeList foundOrder with
    | [] => .error (.indexError "pop from empty list")
    | offset :: _ =>
      let a := a.modifyFree foundOrder List.tail
      match a.blocks.get? offset with
      | none => .error (.keyError (toString offset))
      | some _ =>
        let a := splitDown offset targetOrder (foundOrder - targetOrder) a
        match a.blocks.get? offset with
        | none => .error (.keyError (toString offset))
        | some block =>
          .ok (some offset, { a with
            blocks := a.blocks.set offset { block with allocated := true, requestId := requestId }
            allocatedBytes := a.allocatedBytes + block.size
            numAllocations := a.numAllocations + 1 })

/-- `allocate`: a block of at least `size` bytes, or `none`. -/
def allocate (size : Int) (requestId : Option String) : Except PyError (Option Nat × BuddyAllocator) :=
  if size ≤ 0 then .error (.valueError s!"Allocation size must be positive, got {size}")
  else
    let allocSize := max (nextPowerOf2 size) a.minBlockSize
    let targetOrder := sizeToOrder a.minBlockSize allocSize
    if targetOrder > a.maxOrder then .ok (none, a)
    else a.allocateLocked targetOrder requestId

/-- `count_free_slots`: how many allocations of `slotSize` bytes fit, from the free lists. -/
def countFreeSlots (slotSize : Int) : Nat :=
  if slotSize ≤ 0 then 0
  else
    let allocSize := max (nextPowerOf2 slotSize) a.minBlockSize
    let first := sizeToOrder a.minBlockSize allocSize
    (List.range' first (a.maxOrder + 1 - first)).foldl (fun count order =>
      (a.freeList order).foldl (fun count _ =>
        let blockSize := a.minBlockSize <<< order
        count + blockSize / allocSize) count) 0

/-! ## Freeing -/

/-- What `_coalesce` does after its loop: put the block on the free list of its order. -/
def pushFree (block : Block) : BuddyAllocator :=
  a.modifyFree (sizeToOrder a.minBlockSize block.size) (· ++ [block.offset])

/-- Merge the free buddy at `buddyOffset` into the block at `offset`; the `Block` object of the
    lower of the two offsets stays. -/
def mergeBuddy (offset buddyOffset : Nat) : BuddyAllocator :=
  let double : Block → Block := fun b => { b with size := b.size * 2 }
  if buddyOffset < offset then
    { a with blocks := (a.blocks.erase offset).modify buddyOffset double }
  else
    { a with blocks := (a.blocks.erase buddyOffset).modify offset double }

/-- The loop of `_coalesce`, on the block at `offset`. -/
def coalesceLoop : Nat → Nat → BuddyAllocator → Except PyError BuddyAllocator
  | 0, _, _ => .error .diverged
  | fuel + 1, offset, a =>
    match a.blocks.get? offset with
    | none => .error (.keyError (toString offset))
    | some block =>
      if block.size < a.poolSize then
        let buddyOffset := block.offset ^^^ block.size
        match a.blocks.get? buddyOffset with
        | none => .ok (a.pushFree block)
        | some buddy =>
          if buddy.allocated = true ∨ buddy.size ≠ block.size then .ok (a.pushFree block)
          else
            let order := sizeToOrder a.minBlockSize buddy.size
            if buddyOffset ∈ a.freeList order then
              let a := a.modifyFree order (·.erase buddyOffset)
              coalesceLoop fuel (min buddyOffset block.offset) (a.mergeBuddy block.offset buddyOffset)
            else .error (.valueError "list.remove(x): x not in list")
      else .ok (a.pushFree block)

/-- `_coalesce`; every round doubles the block, so there are at most `maxOrder` of them. -/
def coalesce (offset : Nat) : Except PyError BuddyAllocator :=
  coalesceLoop (a.maxOrder + 1) offset a

def freeLocked (offset : Nat) : Except PyError (Bool × BuddyAllocator) :=
  match a.blocks.get? offset with
  | none => .ok (false, a)
  | some block =>
    if block.allocated = false then .ok (false, a)
    else
      let a := { a with
        blocks := a.blocks.set offset { block with allocated := false, requestId := none }
        allocatedBytes := a.allocatedBytes - block.size
        numAllocations := a.numAllocations - 1 }
      (a.coalesce offset).map fun a => (true, a)

/-- `free`; no block has a negative offset. -/
def free : Int → Except PyError (Bool × BuddyAllocator)
  | .ofNat offset => a.freeLocked offset
  | .negSucc _ => .ok (false, a)

/-! ## Runs -/

inductive Op where
  | allocate (size : Int) (requestId : Option String)
  | free (offset : Int)
deriving DecidableEq, Repr

/-- The state after one call. A call that raises leaves the allocator as it was: `allocate` raises
    on a size that is not positive, before it touches the pool. -/
def step : Op → BuddyAllocator
  | .allocate size requestId =>
    match a.allocate size requestId with
    | .ok (_, a') => a'
    | .error _ => a
  | .free offset =>
    match a.free offset with
    | .ok (_, a') => a'
    | .error _ => a

def run (ops : List Op) : BuddyAllocator := ops.foldl step a

end BuddyAllocator
