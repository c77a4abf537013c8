import SolInfer.Lib.Run
import SolInfer.Transport.Manager

set_option autoImplicit false

/-! # The transfer manager: ownership of slots

A staged transfer or a pending receive owns its slot. In every state the manager can reach, owned
slots are live allocations and no slot has two owners. Staging a transfer keeps the promise of its
docstring (a staged transfer, or `None` and nothing changed) exactly under `StageCondition`. -/

namespace DiffusionTransferManager

open TransferTensorBuffer Dict

inductive Owner where
  | staged (requestId : RequestId)
  | pending (requestId : RequestId)
deriving DecidableEq

def slotOf (m : DiffusionTransferManager) : Owner → Option SlotHandle
  | .staged r => (m.staged.get? r).bind StagedTransfer.slot
  | .pending r => (m.pendingReceives.get? r).map PendingReceive.slot

def LiveSlot (m : DiffusionTransferManager) (s : SlotHandle) : Prop :=
  ∃ b, m.buffer.allocator.Live s.offset b ∧ b.size = s.size

/-- Owned slots are live allocations, each with one owner. -/
structure WellFormed (m : DiffusionTransferManager) : Prop where
  allocator : m.buffer.allocator.WellFormed
  live : ∀ w s, m.slotOf w = some s → m.LiveSlot s
  distinct : ∀ w w' s s', m.slotOf w = some s → m.slotOf w' = some s' → s.offset = s'.offset → w = w'

variable {m m' : DiffusionTransferManager} {fields : List (String × FieldValue)} {slot : SlotHandle}
variable {a' : BuddyAllocator} {requestId : RequestId}

/-! ## Preservation -/

theorem slotOf_setStaged (m : DiffusionTransferManager) (st : StagedTransfer) (w : Owner) :
    (m.setStaged st).slotOf w = if w = .staged st.requestId then st.slot else m.slotOf w := by
  cases w with
  | staged r => by_cases h : st.requestId = r <;> simp [slotOf, setStaged, get?_set, h, eq_comm (a := r)]
  | pending r => simp [slotOf, setStaged]

theorem WellFormed.assign (h : m.WellFormed) {w₀ : Owner} {given : Option SlotHandle}
    (hwf : m'.buffer.allocator.WellFormed)
    (hslot : ∀ w, m'.slotOf w = if w = w₀ then given else m.slotOf w)
    (hgiven : ∀ s, given = some s → m'.LiveSlot s ∧
      ∀ w t, w ≠ w₀ → m.slotOf w = some t → t.offset ≠ s.offset)
    (hlive : ∀ w s, w ≠ w₀ → m.slotOf w = some s → m'.LiveSlot s) : m'.WellFormed := by
  refine ⟨hwf, fun w s hw => ?_, fun w w' s s' hw hw' he => ?_⟩
  · rw [hslot] at hw
    split at hw
    · exact (hgiven s hw).1
    next hne => exact hlive w s hne hw
  · rw [hslot] at hw hw'
    split at hw
    next hw₀ =>
      split at hw'
      next hw₀' => rw [hw₀, hw₀']
      next hne => exact absurd he.symm ((hgiven s hw).2 w' s' hne hw')
    next hne =>
      split at hw'
      · exact absurd he ((hgiven s' hw').2 w s hne hw)
      · exact h.distinct w w' s s' hw hw' he

theorem WellFormed.drop (h : m.WellFormed) {w₀ : Owner} (hbuf : m'.buffer = m.buffer)
    (hslot : ∀ w, m'.slotOf w = if w = w₀ then none else m.slotOf w) : m'.WellFormed := by
  refine h.assign (hbuf ▸ h.allocator) hslot (by simp) fun w s _ hw => ?_
  rw [LiveSlot, hbuf]
  exact h.live w s hw

theorem Takes.liveSlot (ht : Takes m.buffer.allocator a' slot) (pool : Memory) :
    LiveSlot { m with buffer := ⟨a', pool⟩ } slot ∧
      ∀ s, m.LiveSlot s → LiveSlot { m with buffer := ⟨a', pool⟩ } s ∧ s.offset ≠ slot.offset := by
  obtain ⟨b, hsize, hlive⟩ := ht.live
  refine ⟨⟨b, (hlive _ _).2 (.inl ⟨rfl, rfl⟩), hsize⟩, ?_⟩
  rintro s ⟨c, hc, hcs⟩
  refine ⟨⟨c, (hlive _ _).2 (.inr hc), hcs⟩, fun he => ?_⟩
  exact ht.fresh c (he ▸ hc)

theorem WellFormed.give
    {pool : Memory} (h : m.WellFormed) (ht : Takes m.buffer.allocator a' slot) (w₀ : Owner)
    (hbuf : m'.buffer = ⟨a', pool⟩)
    (hslot : ∀ w, m'.slotOf w = if w = w₀ then some slot else m.slotOf w) : m'.WellFormed := by
  obtain ⟨hnew, hold⟩ := Takes.liveSlot ht pool
  have hlive : ∀ s, LiveSlot { m with buffer := ⟨a', pool⟩ } s → m'.LiveSlot s := by
    intro s hs
    rwa [LiveSlot, hbuf]
  refine h.assign (by rw [hbuf]; exact ht.wellFormed) hslot ?_
    fun w s _ hw => hlive s (hold s (h.live w s hw)).1
  rintro _ ⟨⟩
  exact ⟨hlive slot hnew, fun w t _ hw => (hold t (h.live w t hw)).2⟩

theorem new_wellFormed {poolSize minBlockSize : Int} {bytes : Memory} {b : TransferTensorBuffer}
    (h : TransferTensorBuffer.new poolSize minBlockSize bytes = .ok b) (sessionId : String)
    (poolDataPtr : Nat) : (new sessionId poolDataPtr b).WellFormed where
  allocator := (TransferTensorBuffer.new_wellFormed h).1
  live w s hw := by cases w <;> simp [slotOf, new] at hw
  distinct w w' s s' hw := by cases w <;> simp [slotOf, new] at hw

/-! ## Staging -/

/-- No list field has a `None` entry. -/
def NoHoles (fields : List (String × FieldValue)) : Prop :=
  ∀ name ts, (name, FieldValue.list ts) ∈ fields → none ∉ ts

def bytes (fields : List (String × FieldValue)) : Nat := (sizes (allPieces fields)).sum

theorem listSize_of_noHoles {ts : List (Option Tensor)} (h : none ∉ ts) (i : Nat) :
    listSize ts = .ok (sizes (FieldValue.indexed i ts)).sum := by
  induction ts generalizing i with
  | nil => rfl
  | cons t rest ih =>
    cases t with
    | none => exact absurd (List.mem_cons_self ..) h
    | some t =>
      have hrest : none ∉ rest := fun hm => h (.tail _ hm)
      rw [listSize, ih hrest (i + 1)]
      simp [FieldValue.indexed, sizes]

theorem listSize_of_hole {ts : List (Option Tensor)} (h : none ∈ ts) : ∃ e, listSize ts = .error e := by
  induction ts with
  | nil => simp at h
  | cons t rest ih =>
    cases t with
    | none => exact ⟨_, rfl⟩
    | some t =>
      obtain ⟨e, he⟩ := ih (by simpa using h)
      exact ⟨e, by rw [listSize, he]⟩

theorem totalSize_of_noHoles (h : NoHoles fields) : totalSize fields = .ok (bytes fields) := by
  induction fields with
  | nil => rfl
  | cons f rest ih =>
    obtain ⟨name, value⟩ := f
    have hrest : NoHoles rest := fun n ts hm => h n ts (.tail _ hm)
    have hfst : fieldSize value = .ok (sizes value.pieces).sum := by
      cases value with
      | none => rfl
      | tensor t => simp [fieldSize, FieldValue.pieces, sizes]
      | list ts => exact listSize_of_noHoles (h name ts (List.mem_cons_self ..)) 0
    rw [totalSize, hfst, ih hrest]
    simp [bytes, allPieces, sizes]

theorem totalSize_of_hole (h : ¬ NoHoles fields) : ∃ e, totalSize fields = .error e := by
  induction fields with
  | nil => exact absurd (fun n ts hm => by simp at hm) h
  | cons f rest ih =>
    obtain ⟨name, value⟩ := f
    rw [totalSize]
    cases hv : fieldSize value with
    | error e => exact ⟨e, rfl⟩
    | ok n =>
      have hrest : ¬ NoHoles rest := by
        intro hr
        refine h fun name' ts hm hnone => ?_
        rcases List.mem_cons.1 hm with he | hm
        · cases he
          obtain ⟨e, he⟩ := listSize_of_hole hnone
          rw [fieldSize, he] at hv
          cases hv
        · exact hr name' ts hm hnone
      obtain ⟨e, he⟩ := ih hrest
      exact ⟨e, by rw [he]⟩

/-- The transfer that `stage_tensors` records. -/
def stagedTransfer (requestId : RequestId) (slot : Option SlotHandle) (manifest : Manifest)
    (scalarFields : Option ScalarFields) : StagedTransfer :=
  { requestId := requestId, slot := slot, manifest := manifest
    scalarFields := scalarFields.getD Dict.empty }

@[simp]
theorem stagedTransfer_requestId (requestId : RequestId) (slot : Option SlotHandle)
    (manifest : Manifest) (scalarFields : Option ScalarFields) :
    (stagedTransfer requestId slot manifest scalarFields).requestId = requestId := rfl

section Staging

variable (h : m.WellFormed) (requestId : RequestId) (fields : Dict String FieldValue)
  (scalarFields : Option ScalarFields)

variable (m) in
/-- What `stage_tensors` can do: raise on a hole, stage a transfer without bytes, find no room, write the tensors
    into a new slot, or raise there and keep the slot, because they do not fit their layout. -/
inductive Stages : Except PyError (Option StagedTransfer) × DiffusionTransferManager → Prop where
  | hole (hh : ¬ NoHoles fields.entries) (e : PyError) : Stages (.error e, m)
  | zero (hh : NoHoles fields.entries) (hz : bytes fields.entries = 0) :
      Stages (.ok (some (stagedTransfer requestId none Dict.empty scalarFields)),
        m.setStaged (stagedTransfer requestId none Dict.empty scalarFields))
  | noRoom (hh : NoHoles fields.entries) (hpos : 0 < bytes fields.entries)
      (hroom : ¬ m.buffer.allocator.HasRoom (bytes fields.entries)) : Stages (.ok none, m)
  | written {slot : SlotHandle} {a' : BuddyAllocator} {manifest : Manifest} (hh : NoHoles fields.entries)
      (hpos : 0 < bytes fields.entries) (hroom : m.buffer.allocator.HasRoom (bytes fields.entries))
      (ht : Takes m.buffer.allocator a' slot)
      (hsize : slot.size = m.buffer.allocator.slotSize (bytes fields.entries))
      (hw : Writable 0 (allPieces fields.entries) slot.size) (hm : manifest.entries = fieldsAt 0 fields.entries) :
      Stages (.ok (some (stagedTransfer requestId (some slot) manifest scalarFields)),
        { m with buffer := ⟨a', writeAll slot.offset m.buffer.pool 0 (allPieces fields.entries)⟩ }.setStaged
          (stagedTransfer requestId (some slot) manifest scalarFields))
  | failed {slot : SlotHandle} {a' : BuddyAllocator} (hpos : 0 < bytes fields.entries)
      (hroom : m.buffer.allocator.HasRoom (bytes fields.entries)) (ht : Takes m.buffer.allocator a' slot)
      (hsize : slot.size = m.buffer.allocator.slotSize (bytes fields.entries))
      (hw : ¬ Writable 0 (allPieces fields.entries) slot.size) (e : PyError) (pool : Memory) :
      Stages (.error e, { m with buffer := ⟨a', pool⟩ })

include h

theorem stageTensors_stages : Stages m requestId fields scalarFields (m.stageTensors requestId fields scalarFields) := by
  by_cases hh : NoHoles fields.entries
  case neg =>
    obtain ⟨e, he⟩ := totalSize_of_hole hh
    rw [stageTensors, he]
    exact .hole hh e
  rw [stageTensors, totalSize_of_noHoles hh]
  rcases Nat.eq_zero_or_pos (bytes fields.entries) with hz | hpos
  · rw [hz]
    exact .zero hh hz
  obtain ⟨n, hn⟩ := Nat.exists_eq_succ_of_ne_zero (Nat.ne_of_gt hpos)
  rcases allocate_spec h.allocator (Int.natCast_pos.2 hpos) requestId with
    ⟨hroom, hnone⟩ | ⟨slot, a', hroom, hok, ht, hsize, -⟩
  · rw [hn] at hnone
    simp only [hn, hnone]
    exact .noRoom hh hpos hroom
  · have hin : Inside ⟨a', m.buffer.pool⟩ slot := ht.inside _
    rw [hn] at hok
    by_cases hw : Writable 0 (allPieces fields.entries) slot.size
    · obtain ⟨manifest, hwrite, hentries⟩ := writeFields_of_writable Dict.empty hin hw
        fields.nodup fun f _ hm => by simp [Dict.keys, Dict.empty] at hm
      simp only [hn, hok, writeTensorsFromGpu, hwrite]
      exact .written hh hpos hroom ht hsize hw (by simpa [Dict.empty] using hentries)
    · obtain ⟨e, pool, hwrite⟩ := writeFields_of_not_writable Dict.empty hin hw
      simp only [hn, hok, writeTensorsFromGpu, hwrite]
      exact .failed hpos hroom ht hsize hw e pool

theorem stageTensors_wellFormed : (m.stageTensors requestId fields scalarFields).2.WellFormed := by
  have hs := stageTensors_stages h requestId fields scalarFields
  generalize m.stageTensors requestId fields scalarFields = res at hs ⊢
  cases hs with
  | hole => exact h
  | noRoom => exact h
  | zero => exact h.drop rfl (slotOf_setStaged m _)
  | written _ _ _ ht => exact h.give ht (.staged requestId) rfl (slotOf_setStaged { m with buffer := ⟨_, _⟩ } _)
  | failed _ _ ht _ _ _ pool =>
    -- the slot of a failed write stays allocated, but nothing owns it
    exact ⟨ht.wellFormed, fun w s hw => ((Takes.liveSlot ht pool).2 s (h.live w s hw)).1, h.distinct⟩

end Staging

/-! ## Runs -/

theorem free_keeps {b b' : TransferTensorBuffer} {freed : Bool} (h : b.allocator.WellFormed)
    (hfree : b.free slot = .ok (freed, b')) : b'.allocator.WellFormed ∧
      ∀ o c, o ≠ slot.offset → b.allocator.Live o c → b'.allocator.Live o c := by
  unfold free at hfree
  rcases BuddyAllocator.free_spec h slot.offset with hno | ⟨o, a', ho, hok, hwf, -, hlive⟩
  · rw [hno] at hfree
    cases hfree
    exact ⟨h, fun _ _ _ hc => hc⟩
  · rw [hok] at hfree
    cases hfree
    obtain rfl : slot.offset = o := Int.ofNat.inj ho
    exact ⟨hwf, fun x c hx hc => (hlive x c).2 ⟨hx, hc⟩⟩

theorem WellFormed.release {freed : Bool}
    (h : m.WellFormed) (w₀ : Owner) (hw₀ : m.slotOf w₀ = some slot)
    (hfree : m.buffer.free slot = .ok (freed, m'.buffer))
    (hslot : ∀ w, m'.slotOf w = if w = w₀ then none else m.slotOf w) : m'.WellFormed := by
  obtain ⟨hwf, hkeep⟩ := free_keeps h.allocator hfree
  refine h.assign hwf hslot (by simp) fun w s hne hw => ?_
  obtain ⟨b, hb, hs⟩ := h.live w s hw
  exact ⟨b, hkeep _ _ (fun he => hne (h.distinct _ _ _ _ hw hw₀ he)) hb, hs⟩

inductive Op where
  | stage (requestId : RequestId) (fields : Dict String FieldValue)
      (scalarFields : Option ScalarFields)
  | freeStaged (requestId : RequestId)
  | allocateReceiveSlot (requestId : RequestId) (size : Int)
  | registerPrealloc (requestId : RequestId) (slot : SlotHandle)
  | popPending (requestId : RequestId)
  | freeReceiveSlot (requestId : RequestId)

/-- The state after a call; a call of the last five kinds that raises changes nothing. -/
def step (m : DiffusionTransferManager) : Op → Option DiffusionTransferManager
  | .stage requestId fields scalarFields => some (m.stageTensors requestId fields scalarFields).2
  | .freeStaged requestId => (m.freeStaged requestId).toOption
  | .allocateReceiveSlot requestId size =>
    ((m.allocateReceiveSlot requestId size).map Prod.snd).toOption
  | .registerPrealloc requestId slot => some (m.registerPreallocAsReceive requestId slot)
  | .popPending requestId => some (m.popPending requestId)
  | .freeReceiveSlot requestId => (m.freeReceiveSlot requestId).toOption

/-- A preallocated slot is a live allocation that nothing else owns; other calls are free. -/
def Admissible (m : DiffusionTransferManager) : Op → Prop
  | .registerPrealloc requestId slot => m.LiveSlot slot ∧
    ∀ w s, w ≠ .pending requestId → m.slotOf w = some s → s.offset ≠ slot.offset
  | _ => True

theorem slotOf_pending {d : Dict RequestId PendingReceive} {x : Option PendingReceive}
    (hd : ∀ r, d.get? r = if requestId = r then x else m.pendingReceives.get? r) (w : Owner) :
    slotOf { m with pendingReceives := d } w =
      if w = .pending requestId then x.map PendingReceive.slot else m.slotOf w := by
  cases w with
  | staged r => simp [slotOf]
  | pending r => by_cases h : requestId = r <;> simp [slotOf, hd, h, eq_comm (a := r)]

theorem freeStaged_wellFormed (h : m.WellFormed)
    (hf : m.freeStaged requestId = .ok m') : m'.WellFormed := by
  have hslots : ∀ w, slotOf { m with staged := m.staged.erase requestId } w
      = if w = .staged requestId then none else m.slotOf w := by
    intro w
    cases w with
    | staged r => by_cases hr : requestId = r <;> simp [slotOf, get?_erase, hr, eq_comm (a := r)]
    | pending r => simp [slotOf]
  unfold freeStaged at hf
  split at hf
  next hnone =>
    cases hf
    exact h.drop rfl hslots
  next slot hslot =>
    split at hf
    · cases hf
    next freed buffer hfree =>
      cases hf
      exact h.release (.staged requestId) hslot hfree hslots

theorem freeReceiveSlot_wellFormed (h : m.WellFormed)
    (hf : m.freeReceiveSlot requestId = .ok m') : m'.WellFormed := by
  unfold freeReceiveSlot at hf
  split at hf
  · cases hf
    exact h.drop rfl (slotOf_pending fun _ => get?_erase ..)
  next pending hp =>
    split at hf
    · cases hf
    next freed buffer hfree =>
      cases hf
      exact h.release (.pending requestId) (by simp [slotOf, hp]) hfree
        (slotOf_pending (m := m) fun _ => get?_erase ..)

theorem allocateReceiveSlot_wellFormed (h : m.WellFormed) {size : Int} {res : Option PendingReceive}
    (hf : m.allocateReceiveSlot requestId size = .ok (res, m')) : m'.WellFormed := by
  unfold allocateReceiveSlot at hf
  by_cases hsize : 0 < size
  · rcases allocate_spec h.allocator hsize requestId with ⟨-, hno⟩ | ⟨slot, a', -, hok, ht, -⟩
    · rw [hno] at hf
      cases hf
      exact h
    · rw [hok] at hf
      cases hf
      exact h.give ht (.pending requestId) rfl (slotOf_pending fun _ => get?_set ..)
  · rw [allocate, BuddyAllocator.allocate, if_pos (Int.not_lt.1 hsize)] at hf
    cases hf

theorem step_wellFormed {op : Op} (h : m.WellFormed)
    (hop : m.Admissible op) (hs : m.step op = some m') : m'.WellFormed := by
  cases op with
  | stage r fields scalarFields =>
    cases hs
    exact stageTensors_wellFormed h r fields scalarFields
  | freeStaged r =>
    rw [step, Except.toOption_eq_some] at hs
    exact freeStaged_wellFormed h hs
  | allocateReceiveSlot r size =>
    rw [step, Except.toOption_eq_some] at hs
    obtain ⟨p, hres, rfl⟩ := Except.map_eq_ok.1 hs
    exact allocateReceiveSlot_wellFormed h hres
  | registerPrealloc r slot =>
    cases hs
    obtain ⟨hlive, hothers⟩ := hop
    refine h.assign h.allocator (slotOf_pending fun _ => get?_set ..) ?_ fun w s _ hw => h.live w s hw
    rintro _ ⟨⟩
    exact ⟨hlive, hothers⟩
  | popPending r =>
    cases hs
    exact h.drop rfl (slotOf_pending fun _ => get?_erase ..)
  | freeReceiveSlot r =>
    rw [step, Except.toOption_eq_some] at hs
    exact freeReceiveSlot_wellFormed h hs

/-- Every state that a manager over a new buffer can reach is well formed. -/
theorem reaches_wellFormed {poolSize minBlockSize : Int} {bytes : Memory}
    {b : TransferTensorBuffer} (hb : TransferTensorBuffer.new poolSize minBlockSize bytes = .ok b)
    {sessionId : String} {poolDataPtr : Nat}
    (h : Run.Reaches step Admissible (new sessionId poolDataPtr b) m) : m.WellFormed :=
  h.invariant (new_wellFormed hb sessionId poolDataPtr)
    fun _ _ _ hm hop hs => step_wellFormed hm hop hs

/-- A contiguous tensor of `n` zero bytes. -/
def byteTensor (n : Nat) : Tensor :=
  { shape := [n], stride := [1], dtype := .uint8, data := List.replicate n 0
    strideLength := by simp, dataLength := by simp [DType.elementSize] }

/-- A staged transfer beside a pending receive, in slots of their own. -/
theorem reaches_wellFormed_receive :
    ∃ b m, TransferTensorBuffer.new (2 ^ 22) (2 ^ 20) (fun _ => 0) = .ok b ∧
      Run.exec step (new "session" 0 b)
        [.stage (some "a") (Dict.empty.set "latents" (.tensor (byteTensor 4))) none,
          .allocateReceiveSlot (some "r") 4] = some m ∧
      (m.slotOf (.staged (some "a"))).map SlotHandle.offset = some 0 ∧
      (m.slotOf (.pending (some "r"))).map SlotHandle.offset = some (2 ^ 20) ∧ m.WellFormed := by
  refine ⟨_, _, rfl, rfl, rfl, rfl, ?_⟩
  exact @reaches_wellFormed _ (2 ^ 22) (2 ^ 20) (fun _ => 0) _ rfl "session" 0
    (.step (e := .allocateReceiveSlot (some "r") 4)
      (.step (e := .stage (some "a") (Dict.empty.set "latents" (.tensor (byteTensor 4))) none) .refl trivial rfl)
      trivial rfl)

/-! ## What a caller of `stage_tensors` relies on -/

/-- A live block without an entry in `_staged`. -/
def Unstaged (m : DiffusionTransferManager) (o : Nat) : Prop :=
  (∃ b, m.buffer.allocator.Live o b) ∧ ∀ r s, m.slotOf (.staged r) = some s → s.offset ≠ o

/-- The transfer is recorded, its slot is allocated, and its manifest describes the fields by byte
    ranges inside the slot that are 512-byte aligned and apart. -/
structure IsStaged (m : DiffusionTransferManager) (requestId : RequestId)
    (fields : Dict String FieldValue) (st : StagedTransfer) : Prop where
  recorded : m.staged.get? requestId = some st
  slot : ∀ s, st.slot = some s → m.LiveSlot s
  entries : ∀ name es, st.manifest.get? name = some es →
    ∃ v, fields.get? name = some v ∧ es.length = v.pieces.length
  inside : ∀ r ∈ manifestRanges fields.entries st.manifest, ∃ s, st.slot = some s ∧ r.1 + r.2 ≤ s.size
  aligned : ∀ r ∈ manifestRanges fields.entries st.manifest, 512 ∣ r.1
  apart : Layout.Apart (manifestRanges fields.entries st.manifest)

/-- The outcome of staging in state `m`: no exception; `None` leaves the allocator and the staged
    table unchanged; a staged transfer is well laid out and no slot loses its entry. -/
def StagingSafe (m : DiffusionTransferManager) (requestId : RequestId)
    (fields : Dict String FieldValue) :
    Except PyError (Option StagedTransfer) × DiffusionTransferManager → Prop
  | (.error _, _) => False
  | (.ok none, m') => m'.buffer.allocator = m.buffer.allocator ∧ m'.staged = m.staged
  | (.ok (some st), m') => m'.IsStaged requestId fields st ∧ ∀ o, m'.Unstaged o → m.Unstaged o

/-- No list entry is `None`; and the pool has no room, or the request has no staged slot yet and its
    tensors, if they have any bytes, view as bytes and fit the slot in their aligned layout. -/
def StageCondition (m : DiffusionTransferManager) (requestId : RequestId)
    (fields : Dict String FieldValue) : Prop :=
  let total := bytes fields.entries
  NoHoles fields.entries ∧
    ((0 < total ∧ ¬ m.buffer.allocator.HasRoom total) ∨
      (m.slotOf (.staged requestId) = none ∧
        (total = 0 ∨ Writable 0 (allPieces fields.entries) (m.buffer.allocator.slotSize total))))

/-- Recording a transfer leaves no slot without its entry exactly when the request had none. -/
theorem setStaged_unstaged_iff (m' : DiffusionTransferManager) {st : StagedTransfer}
    (h : m.WellFormed) (hslots : ∀ r, m'.slotOf (.staged r)
      = if r = st.requestId then st.slot else m.slotOf (.staged r))
    (hlive : ∀ o, (∃ b, m'.buffer.allocator.Live o b)
      ↔ (∃ s, st.slot = some s ∧ s.offset = o) ∨ ∃ b, m.buffer.allocator.Live o b)
    (hfresh : ∀ s, st.slot = some s → ∀ b, ¬ m.buffer.allocator.Live s.offset b) :
    (∀ o, m'.Unstaged o → m.Unstaged o) ↔ m.slotOf (.staged st.requestId) = none := by
  constructor
  · intro hall
    cases hold : m.slotOf (.staged st.requestId) with
    | none => rfl
    | some s₀ =>
      -- the entry of the old slot is overwritten, and no other entry owns that slot
      obtain ⟨b, hb, -⟩ := h.live _ _ hold
      have hun : m'.Unstaged s₀.offset := by
        refine ⟨(hlive _).2 (.inr ⟨b, hb⟩), fun r s hr he => ?_⟩
        rw [hslots] at hr
        split at hr
        · exact hfresh s hr b (he ▸ hb)
        next hne => exact hne (Owner.staged.inj (h.distinct _ _ _ _ hr hold he))
      exact absurd rfl ((hall _ hun).2 _ _ hold)
  · intro hnone o hun
    obtain ⟨hl, hothers⟩ := hun
    rcases (hlive o).1 hl with ⟨s, hs, he⟩ | hold
    · exact absurd he (hothers st.requestId s (by rw [hslots, if_pos rfl, hs]))
    · refine ⟨hold, fun r s hr => hothers r s ?_⟩
      have hne : r ≠ st.requestId := fun he => by rw [he, hnone] at hr; cases hr
      rw [hslots, if_neg hne, hr]

theorem fieldsAt_lengths (off : Nat) {name : String}
    {es : List ManifestEntry} (h : (name, es) ∈ fieldsAt off fields) :
    ∃ v, (name, v) ∈ fields ∧ es.length = v.pieces.length := by
  induction fields generalizing off with
  | nil => simp [fieldsAt] at h
  | cons f rest ih =>
    obtain ⟨name', value⟩ := f
    have hrec : (name, es) ∈ fieldsAt (Layout.next 512 off (sizes value.pieces)) rest →
        ∃ v, (name, v) ∈ (name', value) :: rest ∧ es.length = v.pieces.length := by
      intro hm
      obtain ⟨v, hv, hlen⟩ := ih _ hm
      exact ⟨v, List.mem_cons_of_mem _ hv, hlen⟩
    rw [fieldsAt] at h
    split at h
    · exact hrec h
    · rcases List.mem_cons.1 h with he | h
      · cases he
        exact ⟨value, List.mem_cons_self .., length_entriesAt off value.pieces⟩
      · exact hrec h

section

variable (requestId : RequestId) (fields : Dict String FieldValue) (scalarFields : Option ScalarFields)

theorem isStaged_written {manifest : Manifest} {pool : Memory} (ht : Takes m.buffer.allocator a' slot)
    (hw : Writable 0 (allPieces fields.entries) slot.size)
    (hm : manifest.entries = fieldsAt 0 fields.entries) :
    ({ m with buffer := ⟨a', pool⟩ }.setStaged
      (stagedTransfer requestId (some slot) manifest scalarFields)).IsStaged requestId fields
        (stagedTransfer requestId (some slot) manifest scalarFields) := by
  have hranges : manifestRanges fields.entries manifest
      = Layout.place 512 0 (sizes (allPieces fields.entries)) := by
    rw [manifestRanges, ← ranges_fieldsAt 0 fields.entries fields.nodup]
    simp only [Dict.get?, hm]
  refine ⟨get?_set_self .., ?_, ?_, ?_, ?_, ?_⟩
  · intro s hs
    cases hs
    exact (Takes.liveSlot ht pool).1
  · intro name es hes
    have hmem := Dict.mem_entries.2 hes
    rw [show (stagedTransfer requestId (some slot) manifest scalarFields).manifest.entries
      = fieldsAt 0 fields.entries from hm] at hmem
    obtain ⟨v, hv, hlen⟩ := fieldsAt_lengths 0 hmem
    exact ⟨v, Dict.mem_entries.1 hv, hlen⟩
  · intro r hr
    rw [stagedTransfer, hranges] at hr
    exact ⟨slot, rfl, hw.2 r hr⟩
  · intro r hr
    rw [stagedTransfer, hranges] at hr
    exact Layout.dvd_of_mem_place (Nat.dvd_zero _) hr
  · rw [stagedTransfer, hranges]
    exact Layout.place_apart (by decide) 0 _

theorem isStaged_zero :
    (m.setStaged (stagedTransfer requestId none Dict.empty scalarFields)).IsStaged requestId fields
      (stagedTransfer requestId none Dict.empty scalarFields) := by
  have hranges : manifestRanges fields.entries Dict.empty = [] := by simp [manifestRanges]
  refine ⟨get?_set_self .., ?_, ?_, ?_, ?_, ?_⟩
  · intro s hs
    cases hs
  · intro name es hes
    cases hes
  all_goals simp [stagedTransfer, hranges, Layout.Apart]

theorem setStaged_slots (m : DiffusionTransferManager) (st : StagedTransfer) (r : RequestId) :
    (m.setStaged st).slotOf (.staged r)
      = if r = st.requestId then st.slot else m.slotOf (.staged r) := by
  rw [slotOf_setStaged]
  simp only [Owner.staged.injEq]

theorem stageTensors_safe_iff (h : m.WellFormed) :
    StagingSafe m requestId fields (m.stageTensors requestId fields scalarFields)
      ↔ StageCondition m requestId fields := by
  simp only [StageCondition]
  have hs := stageTensors_stages h requestId fields scalarFields
  generalize m.stageTensors requestId fields scalarFields = res at hs ⊢
  cases hs with
  | hole hh => simp [StagingSafe, hh]
  | zero hh hz =>
    -- nothing to write: the transfer is recorded without a slot
    rw [StagingSafe, setStaged_unstaged_iff _ h (setStaged_slots m _)
      (by simp [stagedTransfer, setStaged]) (by simp [stagedTransfer])]
    simp [isStaged_zero, hz, hh]
  | noRoom hh hpos hroom => simp [StagingSafe, hh, hpos, hroom]
  | failed hpos hroom _ hsize hw => simp [StagingSafe, hroom, hw, ← hsize, Nat.ne_of_gt hpos]
  | @written slot a' manifest hh hpos hroom ht hsize hw hm =>
    rw [StagingSafe, setStaged_unstaged_iff _ h (setStaged_slots { m with buffer := ⟨a', _⟩ } _)
      (by
        intro o
        obtain ⟨b, -, hlive⟩ := ht.live
        simp [setStaged, stagedTransfer, hlive, exists_or, eq_comm])
      (by
        intro s hs b
        cases hs
        exact ht.fresh b)]
    simp [isStaged_written requestId fields scalarFields ht hw hm, hh, hroom, hw, ← hsize]

end

/-- The outcome of `stage_tensors_async` without its event. -/
def withoutEvent :
    Except PyError (Option StagedTransfer × Bool) × DiffusionTransferManager →
      Except PyError (Option StagedTransfer) × DiffusionTransferManager :=
  fun p => (p.1.map Prod.fst, p.2)

theorem withoutEvent_stageTensorsAsync (m : DiffusionTransferManager) (requestId : RequestId)
    (fields : Dict String FieldValue) (scalarFields : Option ScalarFields) (cuda : Bool) :
    withoutEvent (m.stageTensorsAsync requestId fields scalarFields cuda)
      = m.stageTensors requestId fields scalarFields := by
  unfold stageTensorsAsync withoutEvent
  split
  all_goals
    next heq =>
      rw [heq]
      rfl

/-- **Staging keeps its promise exactly under `StageCondition`**, for both entry points: it raises
    on a `None` list entry, on a tensor that does not view as bytes and on a layout whose padding
    overruns the slot, and it orphans the slot of a request that is staged a second time. -/
theorem staging_safe_iff_stageCondition (h : m.WellFormed) (requestId : RequestId)
    (fields : Dict String FieldValue) (scalarFields : Option ScalarFields) (cuda : Bool) :
    (StagingSafe m requestId fields (m.stageTensors requestId fields scalarFields) ∧
      StagingSafe m requestId fields
        (withoutEvent (m.stageTensorsAsync requestId fields scalarFields cuda)))
      ↔ StageCondition m requestId fields := by
  rw [withoutEvent_stageTensorsAsync, and_self, stageTensors_safe_iff _ _ _ h]

/-- Both entry points stage a tensor of four bytes into an empty pool of four blocks. -/
theorem staging_safe_four_bytes :
    ∃ b, TransferTensorBuffer.new (2 ^ 22) (2 ^ 20) (fun _ => 0) = .ok b ∧
      StagingSafe (new "session" 0 b) (some "r") (Dict.empty.set "latents" (.tensor (byteTensor 4)))
        ((new "session" 0 b).stageTensors (some "r")
          (Dict.empty.set "latents" (.tensor (byteTensor 4))) none) := by
  refine ⟨_, rfl, ((staging_safe_iff_stageCondition
    (@new_wellFormed (2 ^ 22) (2 ^ 20) (fun _ => 0) _ rfl "session" 0)
    (some "r") _ none false).2 ⟨?_, Or.inr ⟨rfl, Or.inr ?_⟩⟩).1⟩
  · intro name ts hm
    simp [Dict.set, Dict.setEntries, Dict.empty] at hm
  · decide

/-- A transfer of one byte and `2 ^ 20 - 1` bytes in a pool of 1 MiB blocks gets a slot of 1 MiB;
    the second tensor, aligned to 512, overruns it, and the slot stays allocated without an entry. -/
theorem stageTensors_overruns_slot :
    ∃ b m', TransferTensorBuffer.new (2 ^ 22) (2 ^ 20) (fun _ => 0) = .ok b ∧
      (new "session" 0 b).stageTensors (some "r")
          ((Dict.empty.set "latents" (.tensor (byteTensor 1))).set "embeds"
            (.tensor (byteTensor (2 ^ 20 - 1)))) none
        = (.error (.valueError
            "Write exceeds slot: offset=512, nbytes=1048575, slot_size=1048576"), m') ∧
      m'.buffer.allocator.allocatedBytes = 2 ^ 20 ∧ m'.staged.entries = [] ∧
      ¬ StagingSafe (new "session" 0 b) (some "r")
          ((Dict.empty.set "latents" (.tensor (byteTensor 1))).set "embeds"
            (.tensor (byteTensor (2 ^ 20 - 1))))
          ((new "session" 0 b).stageTensors (some "r")
            ((Dict.empty.set "latents" (.tensor (byteTensor 1))).set "embeds"
              (.tensor (byteTensor (2 ^ 20 - 1)))) none) := by
  refine ⟨_, _, rfl, rfl, rfl, rfl, id⟩

end DiffusionTransferManager
