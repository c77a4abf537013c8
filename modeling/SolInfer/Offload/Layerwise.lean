import SolInfer.Lib.Dict
import SolInfer.Lib.Run
import SolInfer.Lib.Slices

set_option autoImplicit false

/-! # Layerwise offload

`managers/memory_managers/layerwise_offload.py`: the weights of a model's layers live in CPU buffers, and
a layer's parameters are loaded to the GPU before it runs and released afterwards. In between they are
placeholders of one element. Copies take effect when they are issued; streams and events are not modelled.
Tensors are their shapes and their elements in logical order. -/

open Function

namespace Offload

variable {N D E : Type}

/-! ## Models -/

structure Tensor (E : Type) where
  shape : List Nat
  data : List E
deriving DecidableEq, Repr

structure Weight (N D E : Type) where
  name : N
  dtype : D
  shape : List Nat
  data : List E
  isContiguous : Bool
  length_data : data.length = shape.prod

def Weight.numel (w : Weight N D E) : Nat := w.shape.prod

structure Model (N D E : Type) where
  /-- `named_parameters()` -/
  weights : List (Weight N D E)
  nodup : (weights.map Weight.name).Nodup
  /-- `_match_layer_idx`. -/
  layerOf : N → Option Nat
  numLayers : Nat
  requestedPrefetch : Int
  elementSize : D → Nat
  /-- What `torch.empty` leaves in an element. -/
  uninit : E
  /-- `.to(dtype=...)` on an element. -/
  toDtype : D → E → E

namespace Model

variable (m : Model N D E)

def prefetchSize : Nat := (min (max 1 m.requestedPrefetch) m.numLayers).toNat

def offloadedIn (name : N) : Option Nat := (m.layerOf name).filter fun i => i < m.numLayers

def layerWeights (i : Nat) : List (Weight N D E) :=
  m.weights.filter fun w => m.offloadedIn w.name = some i

def placeholder : Tensor E := ⟨[1], [m.uninit]⟩

end Model

/-! ## The CPU buffers -/

/-- `_get_alignment_numel`. -/
def Model.alignmentNumel (m : Model N D E) (dtype : D) : Nat := max 1 (32 / m.elementSize dtype)

/-- `_align_numel_offset`, for an alignment in elements. -/
def alignNumelOffset (alignmentNumel offset : Nat) : Nat :=
  let remainder := offset % alignmentNumel
  if remainder = 0 then offset else offset + alignmentNumel - remainder

/-- Where a weight is kept: in a slice of the flat buffer of its layer and element type, or, to preserve
    its strides, in a tensor of its own. -/
inductive Place where
  | slice (offset numel : Nat)
  | strided
deriving DecidableEq, Repr

/-- An entry of `_weight_metadata`, with its name. -/
structure Meta (N D : Type) where
  name : N
  dtype : D
  shape : List Nat
  place : Place
deriving DecidableEq, Repr

/-- The `aligned_offsets` of the contiguous weights of a group. -/
def alignedOffsets (a : Nat) : Nat → List (Weight N D E) → List (Weight N D E × Nat)
  | _, [] => []
  | current, w :: rest =>
    let offset := alignNumelOffset a current
    (w, offset) :: alignedOffsets a (offset + w.numel) rest

def totalNumel (a : Nat) : Nat → List (Weight N D E) → Nat
  | current, [] => current
  | current, w :: rest => totalNumel a (alignNumelOffset a current + w.numel) rest

section Layout

variable [DecidableEq D] [DecidableEq N]

def groupByDtype (weights : List (Weight N D E)) : Dict D (List (Weight N D E)) :=
  weights.foldl (fun groups w => groups.set w.dtype ((groups.get? w.dtype).getD [] ++ [w])) .empty

/-- The entries of `_weight_metadata` for a group. -/
def groupMetadata (a : Nat) (dtype : D) (weights : List (Weight N D E)) : List (Meta N D) :=
  (weights.filter (fun w => ¬ w.isContiguous)).map (fun w => ⟨w.name, dtype, w.shape, .strided⟩) ++
    (alignedOffsets a 0 (weights.filter (fun w => w.isContiguous))).map
      fun (w, offset) => ⟨w.name, dtype, w.shape, .slice offset w.numel⟩

/-- `_weight_metadata[layer_idx]`, empty for a layer without parameters. -/
def Model.metadata (m : Model N D E) (i : Nat) : List (Meta N D) :=
  (groupByDtype (m.layerWeights i)).entries.flatMap fun (dtype, weights) =>
    groupMetadata (m.alignmentNumel dtype) dtype weights

/-- The flat buffer of a group: an empty one, into which the weights are copied. -/
def cpuBuffer (a : Nat) (uninit : E) (weights : List (Weight N D E)) : List E :=
  (alignedOffsets a 0 weights).foldl (fun buffer (w, offset) => Slices.write buffer offset w.data)
    (List.replicate (totalNumel a 0 weights) uninit)

end Layout

/-! ## The manager -/

/-- `flat` and `strided` are `_consolidated_cpu_weights` and `_strided_cpu_weights`. Of the hooks, the
    number of times they are attached to the layers is kept, and whether `_forward_hooks` holds the
    handles of the last time. -/
structure State (N D E : Type) where
  flat : Nat → D → List E
  strided : N → List E
  gpuLayers : List Nat
  /-- The data of the parameters. -/
  params : N → Tensor E
  attached : Nat
  handles : Bool

variable [DecidableEq N] [DecidableEq D]

namespace State

def setParam (name : N) (t : Tensor E) (s : State N D E) : State N D E :=
  { s with params := update s.params name t }

def cpuRead (s : State N D E) (i : Nat) (entry : Meta N D) : List E :=
  match entry.place with
  | .slice offset numel => Slices.read (s.flat i entry.dtype) offset numel
  | .strided => s.strided entry.name

def cpuWrite (i : Nat) (entry : Meta N D) (data : List E) (s : State N D E) : State N D E :=
  match entry.place with
  | .slice offset _ =>
    let buffer := Slices.write (s.flat i entry.dtype) offset data
    { s with flat := update s.flat i (update (s.flat i) entry.dtype buffer) }
  | .strided => { s with strided := update s.strided entry.name data }

end State

variable (m : Model N D E)

variable (i : Nat) (s : State N D E)

/-- `prefetch_layer`, for a layer with parameters. -/
def prefetchLayer : State N D E :=
  if i ∈ s.gpuLayers then s
  else if m.metadata i = [] then s
  else
    let s := (m.metadata i).foldl
      (fun s entry => s.setParam entry.name ⟨entry.shape, s.cpuRead i entry⟩) s
    { s with gpuLayers := s.gpuLayers ++ [i] }

def releaseLayer : State N D E :=
  if i ∉ s.gpuLayers then s
  else
    let s := (m.metadata i).foldl (fun s entry => s.setParam entry.name m.placeholder) s
    { s with gpuLayers := s.gpuLayers.filter (fun j => j ≠ i) }

def releaseAll : State N D E :=
  s.gpuLayers.foldl (fun s i => releaseLayer m i s) s

def loadAllLayers : State N D E :=
  (List.range m.numLayers).foldl (fun s i => prefetchLayer m i s) s

def syncLayerToCpu : State N D E :=
  if i ∉ s.gpuLayers then s
  else (m.metadata i).foldl (fun s entry => s.cpuWrite i entry (s.params entry.name).data) s

def syncAllLayersToCpu : State N D E :=
  s.gpuLayers.foldl (fun s i => syncLayerToCpu m i s) s

def findMeta (name : N) : Option (Nat × Meta N D) :=
  match m.layerOf name with
  | none => none
  | some i => ((m.metadata i).find? (fun entry => entry.name = name)).map fun entry => (i, entry)

/-- What `update_cpu_weights` does for one weight that fits. -/
def updateWeight (entry : Meta N D) (data : List E) (s : State N D E) : State N D E :=
  let s := s.cpuWrite i entry data
  if i ∈ s.gpuLayers then s.setParam entry.name ⟨(s.params entry.name).shape, data⟩ else s

/-- `update_cpu_weights`: the values written, whether it ended by raising at a weight of another shape, and
    the state it leaves. -/
def updateCpuWeights : List (N × Tensor E) → State N D E → List (N × List E) × Bool × State N D E
  | [], s => ([], false, s)
  | (name, loaded) :: rest, s =>
    match findMeta m name with
    | none => updateCpuWeights rest s
    | some (i, entry) =>
      if entry.shape ≠ loaded.shape then ([], true, s)
      else
        let data := loaded.data.map (m.toDtype entry.dtype)
        let (written, raised, s) := updateCpuWeights rest (updateWeight i entry data s)
        ((name, data) :: written, raised, s)

def iterCpuWeights : List (N × Tensor E) :=
  (List.range m.numLayers).flatMap fun i =>
    (m.metadata i).map fun entry => (entry.name, ⟨entry.shape, s.cpuRead i entry⟩)

def iterMaterializedWeights : List (N × Tensor E) :=
  let offloaded := iterCpuWeights m s
  offloaded ++ (m.weights.filter (fun w => w.name ∉ offloaded.map Prod.fst)).map
    fun w => (w.name, s.params w.name)

/-! ## Hooks -/

def prepareForNextReq : State N D E :=
  (List.range m.prefetchSize).foldl (fun s i => prefetchLayer m i s) s

def preHook : State N D E :=
  let s := if i = 0 then prepareForNextReq m s else s
  let s := prefetchLayer m i s
  if i % m.prefetchSize = 0 then
    (List.range' (i + m.prefetchSize) m.prefetchSize).foldl
      (fun s j => prefetchLayer m (j % m.numLayers) s) s
  else s

def postHook : State N D E := releaseLayer m i s

/-- The state in which a layer runs: all hooks attached in front of it have run. -/
def beforeForward : State N D E := (preHook m i)^[s.attached] s

def forward : State N D E :=
  (postHook m i)^[s.attached] (beforeForward m i s)

/-- `register_forward_hooks`: the list is cleared, and the old handles with it. -/
def registerForwardHooks : State N D E :=
  { s with attached := s.attached + 1, handles := true }

def removeForwardHooks : State N D E :=
  if s.handles then { s with attached := s.attached - 1, handles := false } else s

def disableOffload : State N D E := loadAllLayers m (removeForwardHooks s)

def enableOffload : State N D E :=
  registerForwardHooks (releaseAll m (syncAllLayersToCpu m s))

/-- The weights in their buffers, before anything is loaded. -/
def offloaded : State N D E where
  flat := fun i dtype => cpuBuffer (m.alignmentNumel dtype) m.uninit
    ((((groupByDtype (m.layerWeights i)).get? dtype).getD []).filter (fun w => w.isContiguous))
  strided := fun name => ((m.weights.find? (fun w => w.name = name)).map Weight.data).getD []
  gpuLayers := []
  params := fun name =>
    match m.weights.find? (fun w => w.name = name) with
    | none => m.placeholder
    | some w => if (m.offloadedIn name).isSome then m.placeholder else ⟨w.shape, w.data⟩
  attached := 0
  handles := false

/-- `_initialize`. -/
def initialState : State N D E := registerForwardHooks (prepareForNextReq m (offloaded m))

/-! ## What was written -/

/-- The manager, with what has been written to each parameter: the latest value, the value last brought to
    the CPU, and the layers edited in place since. -/
structure Ledger (N D E : Type) where
  state : State N D E
  latest : N → List E
  synced : N → List E
  dirty : List Nat
  disabled : Bool

inductive Event (N E : Type) where
  | forward (i : Nat)
  | prefetchLayer (i : Nat)
  | releaseLayer (i : Nat)
  | loadAllLayers
  | syncLayerToCpu (i : Nat)
  | updateCpuWeights (weights : List (N × Tensor E))
  | disableOffload
  /-- An in-place edit of a parameter. -/
  | edit (name : N) (data : List E)
  | enableOffload

namespace Ledger

def start : Ledger N D E where
  state := initialState m
  latest := fun name => ((m.weights.find? (fun w => w.name = name)).map Weight.data).getD []
  synced := fun name => ((m.weights.find? (fun w => w.name = name)).map Weight.data).getD []
  dirty := []
  disabled := false

def sync (layers : List Nat) (l : Ledger N D E) : Ledger N D E :=
  { l with
    synced := fun name =>
      if (m.offloadedIn name).any (fun i => i ∈ layers) then l.latest name else l.synced name
    dirty := l.dirty.filter (fun i => i ∉ layers) }

def write (l : Ledger N D E) (written : List (N × List E)) : Ledger N D E :=
  written.foldl (fun l (name, data) =>
    { l with
      latest := update l.latest name data
      synced := update l.synced name data }) l

end Ledger

/-- The record of an in-place edit; a parameter that is not offloaded has no other copy. -/
def editLedger (l : Ledger N D E) (name : N) (data : List E) : Ledger N D E :=
  let l := { l with
    state := l.state.setParam name ⟨(l.state.params name).shape, data⟩
    latest := update l.latest name data }
  match m.offloadedIn name with
  | some i => { l with dirty := i :: l.dirty }
  | none => { l with synced := update l.synced name data }

def step (l : Ledger N D E) : Event N E → Option (Ledger N D E)
  | .forward i => some { l with state := forward m i l.state }
  | .prefetchLayer i => some { l with state := prefetchLayer m i l.state }
  | .releaseLayer i => some { l with state := releaseLayer m i l.state }
  | .loadAllLayers => some { l with state := loadAllLayers m l.state }
  | .syncLayerToCpu i =>
    let layers := if i ∈ l.state.gpuLayers then [i] else []
    some (({ l with state := syncLayerToCpu m i l.state }).sync m layers)
  | .updateCpuWeights weights =>
    let (written, _, state) := updateCpuWeights m weights l.state
    some (({ l with state := state }).write written)
  | .disableOffload => some { l with state := disableOffload m l.state, disabled := true }
  | .edit name data => some (editLedger m l name data)
  | .enableOffload =>
    some (({ l with state := enableOffload m l.state, disabled := false }).sync m l.state.gpuLayers)

/-- Tensors to load have as many elements as their shapes say, and edits happen in place, to parameters of
    the model, while offload is disabled. -/
def Admitted (l : Ledger N D E) : Event N E → Prop
  | .updateCpuWeights weights => ∀ p ∈ weights, p.2.data.length = p.2.shape.prod
  | .edit name data => l.disabled = true ∧ ∃ w ∈ m.weights, w.name = name ∧ data.length = w.numel
  | _ => True

end Offload
