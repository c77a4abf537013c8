import SolInfer.Transport.Buffer

set_option autoImplicit false

/-! # The transfer manager

`transport/manager.py`: the staged transfers and pending receives of one role instance over its
transfer buffer. -/

/-- `StagedTransfer`; a transfer without bytes has no slot. -/
structure StagedTransfer where
  requestId : RequestId
  slot : Option SlotHandle
  manifest : Manifest
  scalarFields : ScalarFields

structure PendingReceive where
  requestId : RequestId
  slot : SlotHandle
deriving DecidableEq, Repr

structure DiffusionTransferManager where
  sessionId : String
  poolDataPtr : Nat
  buffer : TransferTensorBuffer
  staged : Dict RequestId StagedTransfer
  pendingReceives : Dict RequestId PendingReceive

namespace DiffusionTransferManager

/-- `DiffusionTransferManager.__init__`. -/
def new (sessionId : String) (poolDataPtr : Nat) (buffer : TransferTensorBuffer) :
    DiffusionTransferManager :=
  { sessionId := sessionId, poolDataPtr := poolDataPtr, buffer := buffer
    staged := Dict.empty, pendingReceives := Dict.empty }

/-! ## Staging -/

/-- The bytes of the tensors of a list; `None` has no `nelement`. -/
def listSize : List (Option Tensor) → Except PyError Nat
  | [] => .ok 0
  | none :: _ => .error (.attributeError "'NoneType' object has no attribute 'nelement'")
  | some t :: rest =>
    match listSize rest with
    | .error e => .error e
    | .ok n => .ok (t.nbytes + n)

def fieldSize : FieldValue → Except PyError Nat
  | .none => .ok 0
  | .tensor t => .ok t.nbytes
  | .list ts => listSize ts

/-- The size loop of `stage_tensors`. -/
def totalSize : List (String × FieldValue) → Except PyError Nat
  | [] => .ok 0
  | (_, value) :: rest =>
    match fieldSize value with
    | .error e => .error e
    | .ok n =>
      match totalSize rest with
      | .error e => .error e
      | .ok total => .ok (n + total)

variable (m : DiffusionTransferManager) (requestId : RequestId)
  (tensorFields : Dict String FieldValue)

/-- `self._staged[request_id] = staged`. -/
def setStaged (staged : StagedTransfer) : DiffusionTransferManager :=
  { m with staged := m.staged.set staged.requestId staged }

/-- `stage_tensors`: the staged transfer, or `none` when the pool has no room. -/
def stageTensors (scalarFields : Option ScalarFields) :
    Except PyError (Option StagedTransfer) × DiffusionTransferManager :=
  match totalSize tensorFields.entries with
  | .error e => (.error e, m)
  | .ok 0 =>
    let staged : StagedTransfer :=
      { requestId := requestId, slot := none, manifest := Dict.empty
        scalarFields := scalarFields.getD Dict.empty }
    (.ok (some staged), m.setStaged staged)
  | .ok total =>
    match m.buffer.allocate total requestId with
    | .error e => (.error e, m)
    | .ok (none, buffer) => (.ok none, { m with buffer := buffer })
    | .ok (some slot, buffer) =>
      match buffer.writeTensorsFromGpu slot tensorFields with
      | (.error e, buffer) => (.error e, { m with buffer := buffer })
      | (.ok manifest, buffer) =>
        let staged : StagedTransfer :=
          { requestId := requestId, slot := some slot, manifest := manifest
            scalarFields := scalarFields.getD Dict.empty }
        (.ok (some staged), { m with buffer := buffer }.setStaged staged)

/-- `stage_tensors_async`: as `stage_tensors`, with a CUDA event for a transfer that has a slot,
    recorded when a stream is given or CUDA is available. -/
def stageTensorsAsync (scalarFields : Option ScalarFields) (cuda : Bool) :
    Except PyError (Option StagedTransfer × Bool) × DiffusionTransferManager :=
  match m.stageTensors requestId tensorFields scalarFields with
  | (.error e, m) => (.error e, m)
  | (.ok none, m) => (.ok (none, false), m)
  | (.ok (some staged), m) => (.ok (some staged, staged.slot.isSome && cuda), m)

/-- `push_to_peer`; `transferSync` is the return code of the transfer engine. -/
def pushToPeer (transferSync : Int) : Bool :=
  match m.staged.get? requestId with
  | none => false
  | some staged => staged.slot.isNone || decide (transferSync = 0)

def freeStaged : Except PyError DiffusionTransferManager :=
  let popped := { m with staged := m.staged.erase requestId }
  match (m.staged.get? requestId).bind StagedTransfer.slot with
  | none => .ok popped
  | some slot =>
    match m.buffer.free slot with
    | .error e => .error e
    | .ok (_, buffer) => .ok { popped with buffer := buffer }

/-! ## Receiving -/

def allocateReceiveSlot (size : Int) : Except PyError (Option PendingReceive × DiffusionTransferManager) :=
  match m.buffer.allocate size requestId with
  | .error e => .error e
  | .ok (none, buffer) => .ok (none, { m with buffer := buffer })
  | .ok (some slot, buffer) =>
    let pending : PendingReceive := { requestId := requestId, slot := slot }
    .ok (some pending, { m with
      buffer := buffer, pendingReceives := m.pendingReceives.set requestId pending })

def registerPreallocAsReceive (slot : SlotHandle) : DiffusionTransferManager :=
  { m with pendingReceives :=
      m.pendingReceives.set requestId { requestId := requestId, slot := slot } }

/-- `load_tensors` and `load_tensors_async`. -/
def loadTensors (manifest : Manifest) : Except PyError (Dict String FieldValue) :=
  match m.pendingReceives.get? requestId with
  | none =>
    let name := requestId.getD "None"
    .error (.valueError s!"TransferManager: no pending receive slot for {name}")
  | some pending => m.buffer.readTensorsFromManifest pending.slot manifest

/-- `_pending_receives.pop(request_id, None)`: a preallocated slot is given up without freeing it. -/
def popPending : DiffusionTransferManager :=
  { m with pendingReceives := m.pendingReceives.erase requestId }

def freeReceiveSlot : Except PyError DiffusionTransferManager :=
  match m.pendingReceives.get? requestId with
  | none => .ok (m.popPending requestId)
  | some pending =>
    match m.buffer.free pending.slot with
    | .error e => .error e
    | .ok (_, buffer) => .ok { m.popPending requestId with buffer := buffer }

def getReceiveSlotOffset : Option Nat :=
  (m.pendingReceives.get? requestId).map fun pending => pending.slot.offset

def getReceiveSlotAddr : Option Nat :=
  (m.getReceiveSlotOffset requestId).map fun offset => m.poolDataPtr + offset

end DiffusionTransferManager
