import SolInfer.Speculative.Draft

set_option autoImplicit false

/-! # Draft trees

The kernels of `sgl-kernel/csrc/speculative`: `build_tree_efficient` and `build_tree_efficient_partial_packed`
turn the selected candidates of a batch into tree masks, positions and chains of children,
`reconstructIndicesFromTreeMask` recovers the last two from a mask, and `VerifyTreeGreedy` walks down the tree
along the predictions of the target model. A tensor is a flat memory. The kernels compute their indexes in
32 bits, so that one beyond `2 ^ 31` wraps. -/

namespace Eagle

open Grid Function

structure Selection where
  parentList : Nat → Int
  selectedIndex : Nat → Int
  verifiedSeqLen : Nat → Nat

structure Retrive where
  positions : Nat → Int
  retriveIndex : Nat → Int
  retriveNextToken : Nat → Int
  retriveNextSibling : Nat → Int

inductive TreeMaskMode where
  | fullMask
  | qlenOnly
  | qlenOnlyBitpacking
deriving DecidableEq

section Build

variable (x : Selection) (topk depth draftTokenNum bid : Nat)

/-- The loop that looks for a candidate among the selected ones: its place, or `draft_token_num`. -/
def findSelected (tokenIdx : Int) : Nat :=
  (List.range draftTokenNum).findIdx fun p =>
    decide (x.selectedIndex (rowCell bid (draftTokenNum - 1) p) = tokenIdx)

def parentTbIdx (p : Nat) : Int :=
  int32 ((x.selectedIndex (rowCell bid (draftTokenNum - 1) p)).tdiv topk)

def parentTokenIdx (slot : Int) : Int :=
  int32 (x.parentList (cell ((bid * (topk * (depth - 1) + 1) : Nat) + slot)))

/-- The length of the prefix, in an `int`. -/
def seqLen : Int := int32 (x.verifiedSeqLen bid)

/-- Where the first thread finds the parent of token `i`. -/
def parentPosition (i : Nat) : Nat :=
  let slot := parentTbIdx x topk draftTokenNum bid (i - 1)
  if 0 < slot then
    let p := findSelected x draftTokenNum bid (parentTokenIdx x topk depth bid slot)
    if p < draftTokenNum then p + 1 else p
  else 0

/-- One round of the first thread: token `i` goes in front of the children of its parent. A token without a
    parent among the selected ones is ignored with a warning. -/
def linkToken (i : Nat) (o : Retrive) : Retrive :=
  let row := rowCell bid draftTokenNum
  let o := { o with retriveIndex := update o.retriveIndex (row i) (int32 (bid * draftTokenNum + i : Nat)) }
  let p := parentPosition x topk depth draftTokenNum bid i
  if p = draftTokenNum then o
  else if o.retriveNextToken (row p) = -1 then
    { o with retriveNextToken := update o.retriveNextToken (row p) (i : Int) }
  else
    { o with
      retriveNextToken := update o.retriveNextToken (row p) (i : Int)
      retriveNextSibling := update o.retriveNextSibling (row i)
        (int32 (o.retriveNextToken (row p))) }

/-- What the first thread of a block writes besides its mask. -/
def linkTokens (o : Retrive) : Retrive :=
  let row := rowCell bid draftTokenNum
  let o := { o with positions := update o.positions (row 0) (seqLen x bid) }
  -- from the last token to the first
  let o := (List.range' 1 (draftTokenNum - 1)).foldr (linkToken x topk depth draftTokenNum bid) o
  { o with retriveIndex := update o.retriveIndex (row 0) (int32 (bid * draftTokenNum : Nat)) }

/-- The loop of the other threads: from a selected place up to a candidate of the first step, marking every
    place in the mask. -/
def climb {M : Type} (mark : Nat → M → M) : Nat → Nat → M → Nat → Option (M × Nat)
  | 0, _, _, _ => none
  | fuel + 1, curPosition, mask, position =>
    let mask := mark curPosition mask
    let slot := parentTbIdx x topk draftTokenNum bid curPosition
    if slot = 0 then some (mask, position + 1)
    else
      climb mark fuel (findSelected x draftTokenNum bid (parentTokenIdx x topk depth bid slot)) mask
        (position + 1)

/-- A thread of a builder, for a mask whose row it clears with `init` and marks with `mark`. -/
def treeThread {M : Type} (init : M → M) (mark : Nat → M → M) (tid : Nat) (s : M × Retrive) :
    Option (M × Retrive) :=
  if draftTokenNum ≤ tid then some s
  else
    let mask := init s.1
    if tid = 0 then some (mask, linkTokens x topk depth draftTokenNum bid s.2)
    else
      (climb x topk depth draftTokenNum bid mark draftTokenNum (tid - 1) mask 0).map fun r =>
        (r.1, { s.2 with
          positions := update s.2.positions (rowCell bid draftTokenNum tid)
            (int32 (r.2 + seqLen x bid)) })

/-- Where the row of a thread starts, for the columns of the draft tokens. -/
def tokenTreeIdx (mode : TreeMaskMode) (tid : Nat) : Int :=
  match mode with
  | .fullMask =>
    let seqTreeIdx := (List.range bid).foldl
      (fun s i => int32 (s + (x.verifiedSeqLen i * draftTokenNum : Nat)))
      (int32 (draftTokenNum * draftTokenNum * bid : Nat))
    int32 (seqTreeIdx + (seqLen x bid + draftTokenNum) * tid + seqLen x bid + 1)
  | _ => int32 (draftTokenNum * draftTokenNum * bid + draftTokenNum * tid + 1 : Nat)

def clearRow (idx : Int) (mask : Nat → Bool) : Nat → Bool :=
  (List.range (draftTokenNum - 1)).foldl (fun m (i : Nat) => update m (cell (idx + i)) false)
    (update mask (cell (idx - 1)) true)

def markColumn (idx : Int) (cur : Nat) (mask : Nat → Bool) : Nat → Bool := update mask (cell (idx + cur)) true

def buildTreeEfficient (mode : TreeMaskMode) (tid : Nat) (s : (Nat → Bool) × Retrive) :
    Option ((Nat → Bool) × Retrive) :=
  let idx := tokenTreeIdx x draftTokenNum bid mode tid
  treeThread x topk depth draftTokenNum bid (clearRow draftTokenNum idx) (markColumn idx) tid s

/-- A packed row before the climb; the first byte is the lowest. -/
def clearBits (idx : Int) (mask : Nat → Nat) : Nat → Nat := update mask (cell idx) 1

def markBit (idx : Int) (cur : Nat) (mask : Nat → Nat) : Nat → Nat :=
  let byteIdx := (cur + 1) / 8
  let bitIdx := (cur + 1) % 8
  let c := cell (idx + byteIdx)
  update mask c (mask c ||| 1 <<< bitIdx)

def buildTreeEfficientPartialPacked (numBytesPerItem tid : Nat) (s : (Nat → Nat) × Retrive) :
    Option ((Nat → Nat) × Retrive) :=
  let idx := int32 ((bid * draftTokenNum + tid) * numBytesPerItem : Nat)
  treeThread x topk depth draftTokenNum bid (clearBits idx) (markBit idx) tid s

end Build

def numBytesPerItem (draftTokenNum : Nat) : Nat :=
  if 16 < draftTokenNum then 4 else if 8 < draftTokenNum then 2 else 1

/-- The tensors that `build_tree_kernel_efficient` allocates for the indexes; positions are not filled. -/
def retrieveBuf (positions : Nat → Int) : Retrive := ⟨positions, fun _ => -1, fun _ => -1, fun _ => -1⟩

section Launch

variable (x : Selection) (topk depth : Nat) {bs draftTokenNum : Nat}
  (order : Order (Fin bs × Fin draftTokenNum)) (positions : Nat → Int)

/-- `build_tree_kernel_efficient` with a mask of booleans, filled with `true`. -/
def buildTree (mode : TreeMaskMode) : Option ((Nat → Bool) × Retrive) :=
  launch (fun t => buildTreeEfficient x topk depth draftTokenNum t.1 mode t.2) order
    (fun _ => true, retrieveBuf positions)

/-- `build_tree_kernel_efficient` with a mask of bits, filled with 0. -/
def buildTreePacked : Option ((Nat → Nat) × Retrive) :=
  launch (fun t => buildTreeEfficientPartialPacked x topk depth draftTokenNum t.1
    (numBytesPerItem draftTokenNum) t.2) order (fun _ => 0, retrieveBuf positions)

end Launch

section Reconstruct

variable (treeMask : Nat → Bool) (verifiedSeqLen : Nat → Nat) (batchSize draftTokenNum : Nat)

def countAncestor (startIdx : Int) (i : Nat) (s : Nat × Option Nat) : Nat × Option Nat :=
  if treeMask (cell (startIdx + i)) then (s.1 + 1, if s.2.isNone then some i else s.2) else s

/-- Whether row `i` has nothing marked between `parentIdx` and itself. -/
def isSibling (treeMaskOffset : Int) (parentIdx i : Nat) : Bool :=
  let first := int32 (treeMaskOffset + (i * draftTokenNum + parentIdx + 1 : Nat))
  let endIdx := int32 (treeMaskOffset + (i * draftTokenNum + i : Nat))
  (List.range (endIdx - first).toNat).all fun (j : Nat) => !treeMask (cell (first + j))

def reconstructIndicesFromTreeMask (bid tid : Nat) (o : Retrive) : Option Retrive :=
  if batchSize ≤ bid ∨ draftTokenNum ≤ tid then some o
  else
    let c := rowCell bid draftTokenNum tid
    let treeMaskOffset := int32 (bid * (draftTokenNum * draftTokenNum) : Nat)
    -- from the column before the diagonal to the first
    let (depth, parentIdx) := (List.range tid).foldr
      (countAncestor treeMask (treeMaskOffset + (tid * draftTokenNum : Nat))) (0, none)
    let rows := List.range' (tid + 1) (draftTokenNum - (tid + 1))
    let nextTokenIdx := rows.find? fun i => treeMask (cell (treeMaskOffset + (i * draftTokenNum + tid : Nat)))
    let nextSiblingIdx := parentIdx.bind fun p => rows.find? fun i =>
      treeMask (cell (treeMaskOffset + (i * draftTokenNum + p : Nat))) &&
        isSibling treeMask draftTokenNum treeMaskOffset p i
    some {
      positions := update o.positions c ((depth + verifiedSeqLen bid : Nat) : Int)
      retriveIndex := update o.retriveIndex c (int32 (bid * draftTokenNum + tid : Nat))
      retriveNextToken := update o.retriveNextToken c (ParentTree.link nextTokenIdx)
      retriveNextSibling := update o.retriveNextSibling c (ParentTree.link nextSiblingIdx) }

end Reconstruct

def reconstruct (treeMask : Nat → Bool) (verifiedSeqLen : Nat → Nat) {bs draftTokenNum : Nat}
    (order : Order (Fin bs × Fin draftTokenNum)) (o : Retrive) : Option Retrive :=
  launch (fun t => reconstructIndicesFromTreeMask treeMask verifiedSeqLen bs draftTokenNum t.1 t.2) order o

structure Predicted where
  candidates : Nat → Int
  targetPredict : Nat → Int

structure Accepted where
  predicts : Nat → Int
  acceptIndex : Nat → Int
  acceptTokenNum : Nat → Int

structure Walk where
  out : Accepted
  lastAcceptedRetriveIdx : Nat
  numAcceptedTokens : Nat

section Verify

variable (y : Predicted) (o : Retrive) (numSpeculativeTokens numDraftTokens bx : Nat)

def Walk.accept (w : Walk) (curIndex : Nat) : Walk :=
  let draftIndex := o.retriveIndex (uint32 (bx * numDraftTokens) + curIndex)
  { out := { w.out with
      predicts := update w.out.predicts w.lastAcceptedRetriveIdx
        (int32 (y.targetPredict w.lastAcceptedRetriveIdx))
      acceptIndex := update w.out.acceptIndex
        (uint32 (bx * numSpeculativeTokens + (w.numAcceptedTokens + 1))) (int32 draftIndex) }
    lastAcceptedRetriveIdx := draftIndex.toNat
    numAcceptedTokens := w.numAcceptedTokens + 1 }

def acceptSibling : Nat → Int → Walk → Option (Int × Walk)
  | 0, _, _ => none
  | fuel + 1, curIndex, w =>
    if curIndex = -1 then some (curIndex, w)
    else if y.candidates (uint32 (bx * numDraftTokens) + curIndex.toNat) =
        y.targetPredict w.lastAcceptedRetriveIdx then
      some (curIndex, w.accept y o numSpeculativeTokens numDraftTokens bx curIndex.toNat)
    else
      acceptSibling fuel (o.retriveNextSibling (uint32 (bx * numDraftTokens) + curIndex.toNat)) w

def acceptRounds : Nat → Int → Walk → Option Walk
  | 0, _, w => some w
  | rounds + 1, curIndex, w => do
    let (curIndex, w) ← acceptSibling y o numSpeculativeTokens numDraftTokens bx numDraftTokens
      (o.retriveNextToken (uint32 (bx * numDraftTokens) + curIndex.toNat)) w
    if curIndex = -1 then some w else acceptRounds rounds curIndex w

def verifyTreeGreedy (a : Accepted) : Option Accepted := do
  let first := o.retriveIndex (uint32 (bx * numDraftTokens))
  let a := { a with
    acceptIndex := update a.acceptIndex (uint32 (bx * numSpeculativeTokens)) (int32 first) }
  let w ← acceptRounds y o numSpeculativeTokens numDraftTokens bx (numSpeculativeTokens - 1) 0
    ⟨a, first.toNat, 0⟩
  some { w.out with
    acceptTokenNum := update w.out.acceptTokenNum bx (int32 w.numAcceptedTokens)
    predicts := update w.out.predicts w.lastAcceptedRetriveIdx
      (int32 (y.targetPredict w.lastAcceptedRetriveIdx)) }

end Verify

/-- The launch of the verifier: one thread a block. -/
def verify (y : Predicted) (o : Retrive) (numSpeculativeTokens numDraftTokens : Nat) {bs : Nat}
    (order : Order (Fin bs)) (a : Accepted) : Option Accepted :=
  launch (fun (bx : Fin bs) => verifyTreeGreedy y o numSpeculativeTokens numDraftTokens bx) order a

end Eagle
