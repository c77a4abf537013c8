import SolInfer.Lib.Json
import SolInfer.Lib.Layout
import SolInfer.Transport.Allocator
import SolInfer.Transport.Tensor
import SolInfer.Transport.Allocator.Proofs

set_option autoImplicit false

/-! # The transfer buffer

`transport/buffer.py`: a byte pool with a buddy allocator over it. A function that can raise after
it has changed the buffer returns the buffer next to its outcome, since Python keeps the changes. -/

/-- The key of a request; the code also lets `None` through. -/
abbrev RequestId := Option String

abbrev ScalarFields := Dict String Json

/-- `SlotHandle`: a range of the pool. -/
structure SlotHandle where
  requestId : RequestId
  offset : Nat
  size : Nat
deriving DecidableEq, Repr

/-- The value of a tensor field: `None`, a tensor, or a list with or without holes. -/
inductive FieldValue where
  | none
  | tensor (t : Tensor)
  | list (ts : List (Option Tensor))

/-- One entry of a manifest: where a tensor lies in the slot and what it is. -/
structure ManifestEntry where
  offset : Nat
  shape : List Nat
  dtype : String
  listIndex : Option Nat
deriving DecidableEq, Repr

abbrev Manifest := Dict String (List ManifestEntry)

structure TransferTensorBuffer where
  allocator : BuddyAllocator
  pool : Memory

namespace FieldValue

/-- The tensors of a list with their indices, from index `i` on; holes are skipped. -/
def indexed : Nat → List (Option Tensor) → List (Option Nat × Tensor)
  | _, [] => []
  | i, Option.none :: rest => indexed (i + 1) rest
  | i, some t :: rest => (some i, t) :: indexed (i + 1) rest

def pieces : FieldValue → List (Option Nat × Tensor)
  | .none => []
  | .tensor t => [(Option.none, t)]
  | .list ts => indexed 0 ts

end FieldValue

namespace TransferTensorBuffer

/-! ## Slots -/

/-- `TransferTensorBuffer.__init__`; `torch.empty` takes a 64-bit size and leaves the bytes as they
    are. -/
def new (poolSize minBlockSize : Int) (bytes : Memory) : Except PyError TransferTensorBuffer :=
  match BuddyAllocator.new poolSize minBlockSize with
  | .error e => .error e
  | .ok allocator =>
    if allocator.poolSize < 2 ^ 63 then .ok { allocator := allocator, pool := bytes }
    else .error (.runtimeError "Overflow when unpacking long")

variable (b : TransferTensorBuffer) (handle : SlotHandle)

def allocate (size : Int) (requestId : RequestId) :
    Except PyError (Option SlotHandle × TransferTensorBuffer) :=
  match b.allocator.allocate size requestId with
  | .error e => .error e
  | .ok (none, a) => .ok (none, { b with allocator := a })
  | .ok (some offset, a) =>
    let blockSize := match a.blocks.get? offset with
      | some block => block.size
      | none => size.toNat
    .ok (some { requestId := requestId, offset := offset, size := blockSize }, { b with allocator := a })

def free : Except PyError (Bool × TransferTensorBuffer) :=
  match b.allocator.free handle.offset with
  | .error e => .error e
  | .ok (freed, a) => .ok (freed, { b with allocator := a })

/-! ## Tensors in a slot -/

/-- `_pool[start : start + n]`; a slice ends at the end of the pool. -/
def slice (start n : Nat) : List UInt8 :=
  b.pool.read start (min (start + n) b.allocator.poolSize - start)

/-- `_pool[start : start + n].copy_(bytes)`: a single byte is broadcast, any other difference of
    lengths is an error. -/
def copyInto (start n : Nat) (bytes : List UInt8) : Except PyError TransferTensorBuffer :=
  let dst := min (start + n) b.allocator.poolSize - start
  if dst = bytes.length then .ok { b with pool := b.pool.write start bytes }
  else
    match bytes with
    | [byte] => .ok { b with pool := b.pool.write start (List.replicate dst byte) }
    | _ => .error (.runtimeError "The size of tensor a must match the size of tensor b")

/-- `write_tensor`: the number of bytes written. -/
def writeTensor (tensor : Tensor) (byteOffset : Nat) : Except PyError (Nat × TransferTensorBuffer) :=
  let srcTensor := tensor.contiguous
  let nbytes := srcTensor.nbytes
  if byteOffset + nbytes > handle.size then
    .error (.valueError
      s!"Write exceeds slot: offset={byteOffset}, nbytes={nbytes}, slot_size={handle.size}")
  else if srcTensor.viewsAsBytes then
    match b.copyInto (handle.offset + byteOffset) nbytes srcTensor.data with
    | .error e => .error e
    | .ok b => .ok (nbytes, b)
  else .error srcTensor.viewError

def readTensor (shape : List Nat) (dtype : DType) (byteOffset : Nat) : Except PyError Tensor :=
  let nbytes := shape.prod * dtype.elementSize
  let start := handle.offset + byteOffset
  Tensor.ofBytes shape dtype (min start b.allocator.poolSize) (b.slice start nbytes)

/-! ## Manifests -/

/-- `(byte_offset + 511) & ~511`. -/
def align512 (byteOffset : Nat) : Nat := Layout.alignUp 512 byteOffset

/-- Write the tensors of one field from `byteOffset` on: their manifest entries and the offset
    after the last. -/
def writeEntries (handle : SlotHandle) : TransferTensorBuffer → Nat → List (Option Nat × Tensor) →
    Except PyError (List ManifestEntry × Nat) × TransferTensorBuffer
  | b, byteOffset, [] => (.ok ([], byteOffset), b)
  | b, byteOffset, (listIndex, t) :: rest =>
    match b.writeTensor handle t byteOffset with
    | .error e => (.error e, b)
    | .ok (nbytes, b) =>
      let entry : ManifestEntry :=
        { offset := byteOffset, shape := t.shape, dtype := t.dtype.name, listIndex := listIndex }
      match writeEntries handle b (align512 (byteOffset + nbytes)) rest with
      | (.error e, b) => (.error e, b)
      | (.ok (entries, byteOffset), b) => (.ok (entry :: entries, byteOffset), b)

/-- The loop of `write_tensors_from_gpu` over the fields. -/
def writeFields (handle : SlotHandle) : TransferTensorBuffer → Nat → Manifest →
    List (String × FieldValue) → Except PyError Manifest × TransferTensorBuffer
  | b, _, manifest, [] => (.ok manifest, b)
  | b, byteOffset, manifest, (name, value) :: rest =>
    match writeEntries handle b byteOffset value.pieces with
    | (.error e, b) => (.error e, b)
    | (.ok (entries, byteOffset), b) =>
      let manifest := if entries = [] then manifest else manifest.set name entries
      writeFields handle b byteOffset manifest rest

def writeTensorsFromGpu (tensors : Dict String FieldValue) :
    Except PyError Manifest × TransferTensorBuffer :=
  writeFields handle b 0 Dict.empty tensors.entries

def readEntry (entry : ManifestEntry) : Except PyError Tensor :=
  match DType.strToDtype entry.dtype with
  | .error e => .error e
  | .ok dtype => b.readTensor handle entry.shape dtype entry.offset

def readList (b : TransferTensorBuffer) (handle : SlotHandle) :
    List (Option Tensor) → List ManifestEntry → Except PyError (List (Option Tensor))
  | tensors, [] => .ok tensors
  | tensors, entry :: rest =>
    match b.readEntry handle entry with
    | .error e => .error e
    | .ok t =>
      match entry.listIndex with
      | none => .error (.keyError "list_index")
      | some i => readList b handle (tensors.set i (some t)) rest

/-- The value of one field of a manifest; `none` for a field without entries. -/
def readField (entries : List ManifestEntry) : Except PyError (Option FieldValue) :=
  match entries with
  | [] => .ok none
  | first :: _ =>
    if entries.any (fun e => e.listIndex.isSome) then
      let maxIdx := (entries.map (fun e => e.listIndex.getD 0)).foldl max 0 + 1
      match readList b handle (List.replicate maxIdx none) entries with
      | .error e => .error e
      | .ok tensors => .ok (some (.list tensors))
    else
      match b.readEntry handle first with
      | .error e => .error e
      | .ok t => .ok (some (.tensor t))

/-- The loop of `read_tensors_from_manifest` over the fields. -/
def readFields (b : TransferTensorBuffer) (handle : SlotHandle) : Dict String FieldValue →
    List (String × List ManifestEntry) → Except PyError (Dict String FieldValue)
  | result, [] => .ok result
  | result, (name, entries) :: rest =>
    match readField b handle entries with
    | .error e => .error e
    | .ok none => readFields b handle result rest
    | .ok (some value) => readFields b handle (result.set name value) rest

def readTensorsFromManifest (manifest : Manifest) : Except PyError (Dict String FieldValue) :=
  readFields b handle Dict.empty manifest.entries

/-! ## The transfer buffer: layout of a slot and read-back

Writing the tensors of a transfer succeeds exactly when all of them can be viewed as bytes and the
512-byte aligned layout of their sizes ends inside the slot. The writer and the reader meet at
`Holds`: each tensor's bytes lie at the offset the layout gives it. -/

open List

def Inside (b : TransferTensorBuffer) (handle : SlotHandle) : Prop :=
  handle.offset + handle.size ≤ b.allocator.poolSize

/-! ## Slots -/

/-- The allocator `a'` is `a` with the slot as one more live allocation. -/
structure Takes (a a' : BuddyAllocator) (slot : SlotHandle) : Prop where
  wellFormed : a'.WellFormed
  config : a.SameConfig a'
  fresh : ∀ c, ¬ a.Live slot.offset c
  live : ∃ b, b.size = slot.size ∧ ∀ x c, a'.Live x c ↔ (x = slot.offset ∧ c = b) ∨ a.Live x c

theorem new_wellFormed {poolSize minBlockSize : Int} {bytes : Memory} {b : TransferTensorBuffer}
    (h : new poolSize minBlockSize bytes = .ok b) :
    b.allocator.WellFormed ∧ ∀ o c, ¬ b.allocator.Live o c := by
  unfold new at h
  split at h
  · cases h
  next a ha =>
    split at h
    next hlt =>
      cases h
      obtain ⟨-, -, -, hpool, -, -, hblocks, -⟩ := BuddyAllocator.new_eq_ok ha
      have hle := BuddyAllocator.le_nextPowerOf2 (max poolSize minBlockSize)
      refine ⟨(BuddyAllocator.new_wellFormed_iff ha).2 (Bits.noZeroRun_of_lt ?_), ?_⟩
      · have : (2 : Nat) ^ 63 < 2 ^ 64 := by decide
        omega
      · intro o c hl
        rw [BuddyAllocator.Live, hblocks, Dict.get?_set, Dict.get?_empty] at hl
        split at hl
        · cases hl.1
          cases hl.2
        · cases hl.1
    · cases h

theorem allocate_spec {b : TransferTensorBuffer} (h : b.allocator.WellFormed) {size : Int}
    (hsize : 0 < size) (r : RequestId) :
    (¬ b.allocator.HasRoom size ∧ b.allocate size r = .ok (none, b)) ∨
    ∃ slot a', b.allocator.HasRoom size ∧
      b.allocate size r = .ok (some slot, { b with allocator := a' }) ∧
      Takes b.allocator a' slot ∧ slot.size = b.allocator.slotSize size ∧ slot.requestId = r := by
  unfold allocate
  rcases BuddyAllocator.allocate_spec h hsize r with
    ⟨hno, hnone⟩ | ⟨o, c, a', hroom, hok, hwf, hcfg, hc, -, hnew, hlive⟩
  · rw [hnone]
    exact .inl ⟨hno, rfl⟩
  · obtain ⟨hget, -⟩ := (hlive o c).2 (.inl ⟨rfl, rfl⟩)
    rw [hok]
    simp only [hget]
    exact .inr ⟨_, a', hroom, rfl, ⟨hwf, hcfg, hnew, c, rfl, hlive⟩, hc, rfl⟩

theorem Takes.inside {a a' : BuddyAllocator} {slot : SlotHandle} (h : Takes a a' slot)
    (pool : Memory) : Inside ⟨a', pool⟩ slot := by
  obtain ⟨c, hsize, hlive⟩ := h.live
  obtain ⟨hget, -⟩ := (hlive slot.offset c).2 (.inl ⟨rfl, rfl⟩)
  have hin := h.wellFormed.geometry.tiles.inside _ _ (BuddyAllocator.Geometry.sizeAt_eq hget)
  rw [hsize] at hin
  exact hin.2

/-! ## One tensor -/

variable {b : TransferTensorBuffer} {handle : SlotHandle} {t : Tensor} {off limit : Nat}
variable {ps : List (Option Nat × Tensor)}

theorem writeTensor_of_fits (hin : b.Inside handle) (hfit : off + t.nbytes ≤ handle.size)
    (hview : t.Viewable) :
    b.writeTensor handle t off
      = .ok (t.nbytes, { b with pool := b.pool.write (handle.offset + off) t.data }) := by
  have hdst : min (handle.offset + off + t.nbytes) b.allocator.poolSize - (handle.offset + off)
      = t.data.length := by
    have hlen : t.data.length = t.nbytes := t.dataLength
    rw [Inside] at hin
    omega
  unfold writeTensor copyInto
  simp only [Tensor.contiguous_nbytes, Tensor.contiguous_data, if_pos hdst,
    if_neg (Nat.not_lt.2 hfit), if_pos (show t.contiguous.viewsAsBytes = true from hview)]

theorem writeTensor_of_not_fits (h : ¬ (off + t.nbytes ≤ handle.size ∧ t.Viewable)) :
    ∃ e, b.writeTensor handle t off = .error e := by
  unfold writeTensor
  simp only [Tensor.contiguous_nbytes]
  by_cases hfit : off + t.nbytes > handle.size
  · rw [if_pos hfit]
    exact ⟨_, rfl⟩
  · have hview : ¬ t.contiguous.viewsAsBytes = true := fun hv => h ⟨Nat.not_lt.1 hfit, hv⟩
    rw [if_neg hfit, if_neg hview]
    exact ⟨_, rfl⟩

/-! ## The layout of a run of tensors -/

def sizes (ps : List (Option Nat × Tensor)) : List Nat := ps.map fun p => p.2.nbytes

/-- The manifest entries of tensors that are laid out from `off` on. -/
def entriesAt : Nat → List (Option Nat × Tensor) → List ManifestEntry
  | _, [] => []
  | off, (i, t) :: rest =>
    { offset := off, shape := t.shape, dtype := t.dtype.name, listIndex := i }
      :: entriesAt (align512 (off + t.nbytes)) rest

/-- The memory after the tensors have been written from `base + off` on. -/
def writeAll (base : Nat) : Memory → Nat → List (Option Nat × Tensor) → Memory
  | m, _, [] => m
  | m, off, (_, t) :: rest =>
    writeAll base (m.write (base + off) t.data) (align512 (off + t.nbytes)) rest

def Holds (m : Memory) (base : Nat) : Nat → List (Option Nat × Tensor) → Prop
  | _, [] => True
  | off, (_, t) :: rest =>
    m.read (base + off) t.nbytes = t.data ∧ Holds m base (align512 (off + t.nbytes)) rest

/-- What the writer needs: every tensor views as bytes and the layout ends inside the slot. -/
def Writable (off : Nat) (ps : List (Option Nat × Tensor)) (limit : Nat) : Prop :=
  (∀ p ∈ ps, p.2.Viewable) ∧ Layout.Fits 512 off (sizes ps) limit

instance (off : Nat) (ps : List (Option Nat × Tensor)) (limit : Nat) :
    Decidable (Writable off ps limit) := inferInstanceAs (Decidable (_ ∧ _))

theorem writable_cons {i : Option Nat} {rest : List (Option Nat × Tensor)} :
    Writable off ((i, t) :: rest) limit
      ↔ (off + t.nbytes ≤ limit ∧ t.Viewable) ∧ Writable (align512 (off + t.nbytes)) rest limit := by
  unfold Writable sizes
  rw [forall_mem_cons, map_cons, Layout.fits_cons]
  tauto

theorem writable_append {xs ys : List (Option Nat × Tensor)} :
    Writable off (xs ++ ys) limit
      ↔ Writable off xs limit ∧ Writable (Layout.next 512 off (sizes xs)) ys limit := by
  unfold Writable sizes
  rw [forall_mem_append, map_append, Layout.fits_append]
  tauto

theorem writeAll_append (base : Nat) (m : Memory) (off : Nat) (xs ys : List (Option Nat × Tensor)) :
    writeAll base m off (xs ++ ys)
      = writeAll base (writeAll base m off xs) (Layout.next 512 off (sizes xs)) ys := by
  induction xs generalizing m off with
  | nil => rfl
  | cons p rest ih =>
    obtain ⟨i, t⟩ := p
    exact ih _ _

theorem holds_append {m : Memory} {base : Nat} {xs ys : List (Option Nat × Tensor)} :
    Holds m base off (xs ++ ys)
      ↔ Holds m base off xs ∧ Holds m base (Layout.next 512 off (sizes xs)) ys := by
  induction xs generalizing off with
  | nil => simp [Holds, sizes, Layout.next]
  | cons p rest ih =>
    obtain ⟨i, t⟩ := p
    simp only [cons_append, Holds, ih, and_assoc]
    rfl

theorem writeAll_below (base : Nat) (m : Memory) (off : Nat) (ps : List (Option Nat × Tensor))
    {i : Nat} (hi : i < base + off) : writeAll base m off ps i = m i := by
  induction ps generalizing m off with
  | nil => rfl
  | cons p rest ih =>
    obtain ⟨j, t⟩ := p
    have hle : off + t.nbytes ≤ align512 (off + t.nbytes) := Layout.le_alignUp (by decide) _
    rw [writeAll, ih _ _ (by omega), Memory.write_of_not_mem _ (.inl hi)]

/-- What has been written can be read: the tensors that follow lie behind the aligned end. -/
theorem writeAll_holds (base : Nat) (m : Memory) (off : Nat) (ps : List (Option Nat × Tensor)) :
    Holds (writeAll base m off ps) base off ps := by
  induction ps generalizing m off with
  | nil => trivial
  | cons p rest ih =>
    obtain ⟨j, t⟩ := p
    have hlen : t.data.length = t.nbytes := t.dataLength
    have hle : off + t.nbytes ≤ align512 (off + t.nbytes) := Layout.le_alignUp (by decide) _
    have hself := Memory.read_write_self m (base + off) t.data
    rw [hlen] at hself
    refine ⟨Eq.trans (Memory.read_congr (fun i hi => ?_)) hself, ih _ _⟩
    exact writeAll_below base _ (align512 (off + t.nbytes)) rest (by omega)

theorem Holds.congr {m m' : Memory} {base base' : Nat}
    (h : Holds m base off ps) (hfit : Layout.Fits 512 off (sizes ps) limit)
    (hcopy : ∀ i < limit, m' (base' + i) = m (base + i)) : Holds m' base' off ps := by
  induction ps generalizing off with
  | nil => trivial
  | cons p rest ih =>
    obtain ⟨j, t⟩ := p
    obtain ⟨(hend : off + t.nbytes ≤ limit), hrest⟩ := Layout.fits_cons.1 hfit
    refine ⟨?_, ih h.2 hrest⟩
    rw [← h.1]
    refine Memory.read_congr fun i hi => ?_
    have := hcopy (off + i) (by omega)
    rwa [Nat.add_assoc, Nat.add_assoc]

/-! ## Writing -/

theorem writeEntries_of_writable (hin : b.Inside handle) (h : Writable off ps handle.size) :
    writeEntries handle b off ps
      = (.ok (entriesAt off ps, Layout.next 512 off (sizes ps)),
          { b with pool := writeAll handle.offset b.pool off ps }) := by
  induction ps generalizing b off with
  | nil => rfl
  | cons p rest ih =>
    obtain ⟨i, t⟩ := p
    obtain ⟨⟨hfit, hview⟩, hrest⟩ := writable_cons.1 h
    rw [writeEntries, writeTensor_of_fits hin hfit hview]
    simp only
    rw [ih (b := { b with pool := b.pool.write (handle.offset + off) t.data }) hin hrest]
    rfl

theorem writeEntries_of_not_writable (hin : b.Inside handle) (h : ¬ Writable off ps handle.size) :
    ∃ e pool, writeEntries handle b off ps = (.error e, { b with pool := pool }) := by
  induction ps generalizing b off with
  | nil => exact absurd ⟨by simp, by simp [sizes, Layout.Fits, Layout.place]⟩ h
  | cons p rest ih =>
    obtain ⟨i, t⟩ := p
    by_cases hfst : off + t.nbytes ≤ handle.size ∧ t.Viewable
    · have hrest := fun hr => h (writable_cons.2 ⟨hfst, hr⟩)
      obtain ⟨e, pool, he⟩ :=
        ih (b := { b with pool := b.pool.write (handle.offset + off) t.data }) hin hrest
      refine ⟨e, pool, ?_⟩
      rw [writeEntries, writeTensor_of_fits hin hfst.1 hfst.2]
      simp only
      rw [he]
    · obtain ⟨e, he⟩ := writeTensor_of_not_fits (b := b) hfst
      exact ⟨e, b.pool, by rw [writeEntries, he]⟩

/-! ## Fields -/

variable (fields : List (String × FieldValue)) (manifest : Manifest)

def allPieces : List (Option Nat × Tensor) :=
  fields.flatMap fun f => f.2.pieces

/-- The manifest of fields that are laid out from `off` on; a field without tensors has no entry. -/
def fieldsAt : Nat → List (String × FieldValue) → List (String × List ManifestEntry)
  | _, [] => []
  | off, (name, value) :: rest =>
    let tail := fieldsAt (Layout.next 512 off (sizes value.pieces)) rest
    if value.pieces = [] then tail else (name, entriesAt off value.pieces) :: tail

theorem entriesAt_eq_nil : entriesAt off ps = [] ↔ ps = [] := by
  cases ps with
  | nil => simp [entriesAt]
  | cons p rest => simp [entriesAt]

theorem length_entriesAt (off : Nat) (ps : List (Option Nat × Tensor)) :
    (entriesAt off ps).length = ps.length := by
  induction ps generalizing off with
  | nil => rfl
  | cons p rest ih => simp [entriesAt, ih]

theorem writeFields_of_writable {fields : List (String × FieldValue)} (hin : b.Inside handle)
    (h : Writable off (allPieces fields) handle.size) (hnodup : (fields.map Prod.fst).Nodup)
    (hnew : ∀ f ∈ fields, f.1 ∉ manifest.keys) :
    ∃ manifest' : Manifest,
      writeFields handle b off manifest fields
        = (.ok manifest', { b with pool := writeAll handle.offset b.pool off (allPieces fields) }) ∧
      manifest'.entries = manifest.entries ++ fieldsAt off fields := by
  induction fields generalizing b off manifest with
  | nil => exact ⟨manifest, rfl, by simp [fieldsAt]⟩
  | cons f rest ih =>
    obtain ⟨name, value⟩ := f
    obtain ⟨hfst, hrest⟩ := writable_append.1 (show Writable off (value.pieces ++ allPieces rest) _ from h)
    rw [map_cons, nodup_cons] at hnodup
    have hname : name ∉ manifest.keys := hnew (name, value) mem_cons_self
    have hnew' : ∀ f ∈ rest, f.1 ∉ manifest.keys := fun f hf => hnew f (.tail _ hf)
    rw [writeFields, writeEntries_of_writable hin hfst]
    simp only [entriesAt_eq_nil, fieldsAt]
    rw [show allPieces ((name, value) :: rest) = value.pieces ++ allPieces rest from rfl, writeAll_append]
    split
    · exact ih (b := ⟨b.allocator, _⟩) manifest hin hrest hnodup.2 hnew'
    · have hset : ∀ f ∈ rest, f.1 ∉ (manifest.set name (entriesAt off value.pieces)).keys := by
        intro f hf hmem
        rcases Dict.mem_keys_set.1 hmem with he | hmem
        · exact hnodup.1 (mem_map.2 ⟨f, hf, he⟩)
        · exact hnew' f hf hmem
      obtain ⟨manifest', hok, hentries⟩ :=
        ih (b := ⟨b.allocator, writeAll handle.offset b.pool off value.pieces⟩)
          _ hin hrest hnodup.2 hset
      refine ⟨manifest', hok, ?_⟩
      rw [hentries, Dict.entries_set_of_not_mem hname, append_assoc, singleton_append]

theorem writeFields_of_not_writable {fields : List (String × FieldValue)} (hin : b.Inside handle)
    (h : ¬ Writable off (allPieces fields) handle.size) :
    ∃ e pool, writeFields handle b off manifest fields = (.error e, { b with pool := pool }) := by
  induction fields generalizing b off manifest with
  | nil => exact absurd ⟨by simp [allPieces], by simp [allPieces, sizes, Layout.Fits, Layout.place]⟩ h
  | cons f rest ih =>
    obtain ⟨name, value⟩ := f
    rw [writeFields]
    by_cases hfst : Writable off value.pieces handle.size
    · have hrest := fun hr => h (writable_append.2 ⟨hfst, hr⟩)
      rw [writeEntries_of_writable hin hfst]
      exact ih (b := ⟨b.allocator, _⟩) _ hin hrest
    · obtain ⟨e, pool, he⟩ := writeEntries_of_not_writable hin hfst
      rw [he]
      exact ⟨e, pool, rfl⟩

/-! ## The byte ranges of a manifest -/

/-- The byte ranges of the entries of a manifest for the given fields: the offset of each entry and
    the size of the tensor it stands for. -/
def manifestRanges : List (Nat × Nat) :=
  fields.flatMap (fun f =>
    zipWith (fun e p => (e.offset, p.2.nbytes)) ((manifest.get? f.1).getD []) f.2.pieces)

theorem zipWith_entriesAt (off : Nat) (ps : List (Option Nat × Tensor)) :
    zipWith (fun e p => (e.offset, p.2.nbytes)) (entriesAt off ps) ps
      = Layout.place 512 off (sizes ps) := by
  induction ps generalizing off with
  | nil => rfl
  | cons p rest ih =>
    obtain ⟨i, t⟩ := p
    rw [entriesAt, zipWith_cons_cons, ih]
    rfl

theorem ranges_fieldsAt (off : Nat) (fields : List (String × FieldValue))
    (hnodup : (fields.map Prod.fst).Nodup) :
    fields.flatMap (fun f => zipWith (fun e p => (e.offset, p.2.nbytes))
        ((Dict.lookup f.1 (fieldsAt off fields)).getD []) f.2.pieces)
      = Layout.place 512 off (sizes (allPieces fields)) := by
  induction fields generalizing off with
  | nil => rfl
  | cons f rest ih =>
    obtain ⟨name, value⟩ := f
    rw [map_cons, nodup_cons] at hnodup
    have hsizes : sizes (allPieces ((name, value) :: rest))
        = sizes value.pieces ++ sizes (allPieces rest) := map_append ..
    rw [hsizes, Layout.place_append, ← ih _ hnodup.2, ← zipWith_entriesAt, flatMap_cons]
    congr 1
    · rw [fieldsAt]
      simp only
      split
      next hnil => rw [hnil, zipWith_nil_right, zipWith_nil_right]
      · rw [Dict.lookup, if_pos rfl, Option.getD_some]
    · refine flatMap_congr fun f hf => ?_
      have hne : name ≠ f.1 := fun he => hnodup.1 (mem_map.2 ⟨f, hf, he.symm⟩)
      rw [fieldsAt]
      split
      · rfl
      · rw [Dict.lookup, if_neg hne]

end TransferTensorBuffer
