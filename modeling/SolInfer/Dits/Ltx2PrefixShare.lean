import SolInfer.Lib.Batch
import SolInfer.Cache.Ltx2TeaCache

set_option autoImplicit false

/-! # Sharing the guidance prefix in LTX-2

`models/dits/ltx_2.py`: with guidance a batch has a row for each pass, and the perturbed pass differs
from the conditional one only in that some blocks skip an attention. Up to the first such block the two
rows are the same, so the perturbed row can be left out there and copied from the conditional row
afterwards. The model covers the plan, the block loop, and the TeaCache hook around the loop. A tensor
is the list of its rows along the batch dimension, and blocks work row by row. -/

namespace Ltx2

namespace PrefixShare

variable {R F : Type}

/-! ## Perturbations -/

/-- `_LTX2_GUIDANCE_PERTURBATION_KEYS`, which also name the four attentions of a block. -/
inductive PerturbationKey where
  | skipVideoSelfAttnBlocks
  | skipAudioSelfAttnBlocks
  | skipA2vCrossAttn
  | skipV2aCrossAttn
deriving DecidableEq, Repr

def guidancePerturbationKeys : List PerturbationKey :=
  [.skipVideoSelfAttnBlocks, .skipAudioSelfAttnBlocks, .skipA2vCrossAttn, .skipV2aCrossAttn]

/-- The perturbation of one row. A missing key is `none`. -/
structure PerturbationConfig where
  skipVideoSelfAttnBlocks : Option (List Int) := none
  skipAudioSelfAttnBlocks : Option (List Int) := none
  skipA2vCrossAttn : Option Bool := none
  skipV2aCrossAttn : Option Bool := none
deriving DecidableEq, Repr

/-- `_ltx2_is_perturbed`. -/
def isPerturbed (config : PerturbationConfig) (key : PerturbationKey) (blockIdx : Int) : Bool :=
  match key with
  | .skipVideoSelfAttnBlocks => config.skipVideoSelfAttnBlocks.any fun bs => decide (blockIdx ∈ bs)
  | .skipAudioSelfAttnBlocks => config.skipAudioSelfAttnBlocks.any fun bs => decide (blockIdx ∈ bs)
  | .skipA2vCrossAttn => config.skipA2vCrossAttn.getD false
  | .skipV2aCrossAttn => config.skipV2aCrossAttn.getD false

/-- How a block treats an attention: a mask of rows to keep, or a flag to skip it altogether. -/
structure AttnState where
  mask : Option (List Nat)
  skip : Bool
deriving DecidableEq, Repr

/-- The entry for a block of the dictionary that `_ltx2_build_batched_perturbation_states` returns. -/
def batchedPerturbationState (configs : List PerturbationConfig) (key : PerturbationKey)
    (blockIdx : Int) : AttnState :=
  let perturbed := configs.map fun config => isPerturbed config key blockIdx
  if ¬ perturbed.any id then ⟨none, false⟩
  else if perturbed.all id then ⟨none, true⟩
  else ⟨some (perturbed.map (fun p => if p then 0 else 1)), false⟩

/-! ## The plan -/

structure Plan where
  firstSkipBlock : Int
  keepIndices : List Nat
  expandIndices : List Nat
deriving DecidableEq, Repr

def condIdx : Nat := 0

def perturbedIdx : Nat := 2

/-- The rows without the perturbed one. -/
def keepIndices (batchSize : Nat) : List Nat :=
  (List.range batchSize).filter fun i => i ≠ perturbedIdx

/-- Where each row of the full batch is found among those kept. -/
def expandIndices (batchSize : Nat) : List Nat :=
  (List.range batchSize).map
    fun i => if i = perturbedIdx then condIdx else if i < perturbedIdx then i else i - 1

def anyPerturbed (config : PerturbationConfig) (blockIdx : Int) : Bool :=
  guidancePerturbationKeys.any fun key => isPerturbed config key blockIdx

/-- The first of the sorted `skip_blocks`. -/
def firstSkipBlock (config : PerturbationConfig) : Option Int :=
  (config.skipVideoSelfAttnBlocks.getD [] ++ config.skipAudioSelfAttnBlocks.getD []).min?

/-- What the plan depends on besides the call: `_ltx2_share_guidance_prefix_enabled()` and
    `get_tp_world_size()`. -/
structure Env where
  shareEnabled : Bool
  tpWorldSize : Nat

/-- The part of `_ltx2_guidance_prefix_share_plan` after the test of the batch size, for the conditional
    and the perturbed configuration. -/
def planFor (cond perturbed : PerturbationConfig) (blockIndices : List Int) (batchSize : Nat) :
    Option Plan :=
  if blockIndices.any (anyPerturbed cond) then none
  else if isPerturbed perturbed .skipA2vCrossAttn (-1) ∨ isPerturbed perturbed .skipV2aCrossAttn (-1) then
    none
  else
    match firstSkipBlock perturbed with
    | none => none
    | some first =>
      if first ∉ blockIndices then none
      else if blockIndices.min?.any (fun least => first ≤ least) then none
      -- the loop over the blocks stops at the first that is not before the skipped one
      else if (blockIndices.takeWhile (fun b => b < first)).any (anyPerturbed perturbed) then none
      else some ⟨first, keepIndices batchSize, expandIndices batchSize⟩

/-- `_ltx2_guidance_prefix_share_plan`. -/
def guidancePrefixSharePlan (env : Env) (configs : Option (List PerturbationConfig))
    (blockIndices : List Int) (batchSize : Nat) : Option Plan :=
  match configs with
  | none => none
  | some configs =>
    if ¬ env.shareEnabled ∨ env.tpWorldSize ≠ 1 ∨ batchSize ≠ configs.length ∨
        ¬ (batchSize = 3 ∨ batchSize = 4) then
      none
    else
      match configs[condIdx]?, configs[perturbedIdx]? with
      | some cond, some perturbed => planFor cond perturbed blockIndices batchSize
      | _, _ => none

/-! ## Inputs of the blocks -/

variable (indices : List Nat) (fullBatchSize : Nat) (plan : Option Plan)

/-- `_ltx2_index_batch_dim` on a tensor. -/
def indexBatchDim (rows : List R) : List R :=
  if rows.length ≠ fullBatchSize then rows else Batch.select indices rows

/-- An input of the blocks: a tensor with a first dimension, or anything else (`None`, a tensor without
    dimensions). -/
inductive Arg (R : Type) where
  | other (value : R)
  | tensor (rows : List R)
deriving DecidableEq, Repr

def Arg.indexBatchDim : Arg R → Arg R
  | .other value => .other value
  | .tensor rows => .tensor (PrefixShare.indexBatchDim indices fullBatchSize rows)

/-- The tensors among the `full_block_inputs`. -/
inductive TensorInput where
  | encoderHiddenStates
  | audioEncoderHiddenStates
  | temb
  | tembAudio
  | tembPrompt
  | tembAudioPrompt
  | tembCaScaleShift
  | tembCaAudioScaleShift
  | tembCaGate
  | tembCaAudioGate
  | encoderAttentionMask
  | audioEncoderAttentionMask
  | videoSelfAttentionMask
  | audioSelfAttentionMask
  | a2vCrossAttentionMask
  | v2aCrossAttentionMask
deriving DecidableEq, Repr

/-- The rotary embeddings among the `full_block_inputs`. -/
inductive RotaryInput where
  | videoRotaryEmb
  | audioRotaryEmb
  | caVideoRotaryEmb
  | caAudioRotaryEmb
deriving DecidableEq, Repr

/-- The `full_block_inputs`. -/
structure BlockInputs (R : Type) where
  tensor : TensorInput → Arg R
  rotary : RotaryInput → Option (Arg R × Arg R)

/-- All inputs indexed: tensors by `_ltx2_index_batch_dim`, embeddings by `_ltx2_index_rotary_emb`. -/
def BlockInputs.index (inputs : BlockInputs R) : BlockInputs R where
  tensor := fun name => (inputs.tensor name).indexBatchDim indices fullBatchSize
  rotary := fun name => (inputs.rotary name).map fun (p, q) =>
    (p.indexBatchDim indices fullBatchSize, q.indexBatchDim indices fullBatchSize)

/-- What a row of the batch sees of an input; a single row is seen by all. -/
def Arg.row (i : Nat) : Arg R → Option R
  | .other value => some value
  | .tensor [x] => some x
  | .tensor rows => rows[i]?

structure RowInputs (R : Type) where
  tensor : TensorInput → Option R
  rotary : RotaryInput → Option (Option R × Option R)

def BlockInputs.row (i : Nat) (inputs : BlockInputs R) : RowInputs R where
  tensor := fun name => (inputs.tensor name).row i
  rotary := fun name => (inputs.rotary name).map fun (p, q) => (p.row i, q.row i)

/-! ## The block loop -/

structure Hidden (R : Type) where
  video : List R
  audio : List R
deriving DecidableEq, Repr

def Hidden.indexBatchDim (h : Hidden R) : Hidden R :=
  ⟨PrefixShare.indexBatchDim indices fullBatchSize h.video,
    PrefixShare.indexBatchDim indices fullBatchSize h.audio⟩

/-- What a row sees of the state of an attention. -/
structure RowSwitch where
  mask : Option Nat
  skip : Bool
deriving DecidableEq, Repr

def AttnState.row (i : Nat) (state : AttnState) : RowSwitch :=
  ⟨state.mask.bind (fun mask => mask[i]?), state.skip⟩

/-- All that a row-wise block gets for one row. -/
structure RowArgs (R : Type) where
  video : R
  audio : R
  inputs : RowInputs R
  switch : PerturbationKey → RowSwitch

/-- A transformer block. Arguments that are the same for every block and row are part of `apply`. -/
structure Block (R : Type) where
  idx : Int
  apply : RowArgs R → R × R

def Block.run (block : Block R) (inputs : BlockInputs R) (states : PerturbationKey → AttnState)
    (h : Hidden R) : Hidden R :=
  let rows := (h.video.zip h.audio).mapIdx fun i (video, audio) =>
    block.apply ⟨video, audio, inputs.row i, fun key => (states key).row i⟩
  ⟨rows.map Prod.fst, rows.map Prod.snd⟩

/-- A call of `forward`, as far as the block loop and the hook around it read it. -/
structure Call (R : Type) where
  hidden : Hidden R
  inputs : BlockInputs R
  perturbationConfigs : Option (List PerturbationConfig)
  skipVideoSelfAttnBlocks : List Int := []
  skipAudioSelfAttnBlocks : List Int := []
  disableA2vCrossAttn : Bool := false
  disableV2aCrossAttn : Bool := false
  context : Option ForwardContext := none
  passId : String := "default"

def Call.batchSize (call : Call R) : Nat := call.hidden.video.length

def Call.skips (call : Call R) (blockIdx : Int) : PerturbationKey → Bool
  | .skipVideoSelfAttnBlocks => decide (blockIdx ∈ call.skipVideoSelfAttnBlocks)
  | .skipAudioSelfAttnBlocks => decide (blockIdx ∈ call.skipAudioSelfAttnBlocks)
  | .skipA2vCrossAttn => call.disableA2vCrossAttn
  | .skipV2aCrossAttn => call.disableV2aCrossAttn

def attnState (call : Call R) (configs : Option (List PerturbationConfig)) (blockIdx : Int)
    (key : PerturbationKey) : AttnState :=
  if call.skips blockIdx key then ⟨none, true⟩
  else
    match configs with
    | none => ⟨none, false⟩
    | some configs => batchedPerturbationState configs key blockIdx

/-- The variables of the loop. The states of the attentions are determined by the configurations they
    were built from. -/
structure LoopState (R : Type) where
  hidden : Hidden R
  inputs : BlockInputs R
  configs : Option (List PerturbationConfig)
  expanded : Bool

/-- The variables before the loop: with a plan, only the rows to keep. -/
def loopStart (call : Call R) : LoopState R :=
  match plan with
  | none => ⟨call.hidden, call.inputs, call.perturbationConfigs, false⟩
  | some plan =>
    ⟨call.hidden.indexBatchDim plan.keepIndices call.batchSize,
      call.inputs.index plan.keepIndices call.batchSize,
      call.perturbationConfigs.map (Batch.select plan.keepIndices), false⟩

/-- The part of the loop in front of a block: the batch is expanded at the first skipped block. -/
def expand (call : Call R) (blockIdx : Int) (s : LoopState R) : LoopState R :=
  match plan with
  | none => s
  | some plan =>
    if s.expanded = false ∧ plan.firstSkipBlock ≤ blockIdx then
      ⟨s.hidden.indexBatchDim plan.expandIndices plan.keepIndices.length, call.inputs,
        call.perturbationConfigs, true⟩
    else s

def loopStep (call : Call R) (s : LoopState R) (block : Block R) : LoopState R :=
  let s := expand plan call block.idx s
  { s with hidden := block.run s.inputs (attnState call s.configs block.idx) s.hidden }

def loop (call : Call R) (blocks : List (Block R)) : LoopState R :=
  blocks.foldl (loopStep plan call) (loopStart plan call)

/-! ## The hook around the loop -/

/-- A tensor of the TeaCache, or `none` when the operation that should have made it has raised. -/
structure Tensor (R : Type) where
  rows : Option (List R)
deriving DecidableEq, Repr

def Tensor.of (rows : List R) : Tensor R := ⟨some rows⟩

def Tensor.combine (f : R → R → R) (x y : Tensor R) : Tensor R :=
  ⟨x.rows.bind fun xs => y.rows.bind fun ys => Batch.broadcast f xs ys⟩

instance [Add R] : Add (Tensor R) := ⟨Tensor.combine (· + ·)⟩

instance [Sub R] : Sub (Tensor R) := ⟨Tensor.combine (· - ·)⟩

def Arg.toTensor : Arg R → Tensor R
  | .other value => .of [value]
  | .tensor rows => .of rows

def Hidden.toTensors (h : Hidden R) : Tensor R × Tensor R := (.of h.video, .of h.audio)

def hiddenOf? (tensors : Tensor R × Tensor R) : Option (Hidden R) :=
  match tensors.1.rows, tensors.2.rows with
  | some video, some audio => some ⟨video, audio⟩
  | _, _ => none

/-- The call of `lookup`, which does not run the blocks. -/
def lookupCall (call : Call R) (s : LoopState R) : TeaCache.Call (Tensor R) where
  context := call.context
  hiddenStates := .of s.hidden.video
  audioHiddenStates := .of s.hidden.audio
  temb := (s.inputs.tensor .temb).toTensor
  tembAudio := (s.inputs.tensor .tembAudio).toTensor
  skipVideoSelfAttnBlocks := call.skipVideoSelfAttnBlocks
  skipAudioSelfAttnBlocks := call.skipAudioSelfAttnBlocks
  disableA2vCrossAttn := call.disableA2vCrossAttn
  disableV2aCrossAttn := call.disableV2aCrossAttn
  perturbed := call.perturbationConfigs.isSome
  passId := some call.passId
  blocks := id

section Forward

variable [Add F] [LE F] [DecidableLE F] [OfScientific F] [Add R] [Sub R]

variable (env : Env) (ops : TeaCache.TensorOps (Tensor R) F)

/-- The part of `forward` from the plan to `store`: the hidden states and the coordinator, or `none` when
    it raises. -/
def forwardWith (plan : Option Plan) (coordinator : Option (TeaCache.Coordinator (Tensor R) F))
    (blocks : List (Block R)) (call : Call R) :
    Option (Hidden R × Option (TeaCache.Coordinator (Tensor R) F)) :=
  let start := loopStart plan call
  match coordinator with
  | none => some ((loop plan call blocks).hidden, none)
  | some c =>
    let (decision, c) := TeaCache.lookup ops c (lookupCall call start)
    match decision.hidden with
    | some tensors => (hiddenOf? tensors).map fun hidden => (hidden, some c)
    | none =>
      let final := loop plan call blocks
      let original := start.hidden.toTensors
      let hidden := final.hidden.toTensors
      -- `store` subtracts the tensors that `lookup` has seen
      (hiddenOf? (hidden - original)).map fun _ =>
        (final.hidden, some (TeaCache.store ops c decision call.context original hidden
          (final.inputs.tensor .temb).toTensor (final.inputs.tensor .tembAudio).toTensor))

def planOf (blocks : List (Block R)) (call : Call R) : Option Plan :=
  guidancePrefixSharePlan env call.perturbationConfigs (blocks.map Block.idx) call.batchSize

def forward (coordinator : Option (TeaCache.Coordinator (Tensor R) F)) (blocks : List (Block R))
    (call : Call R) : Option (Hidden R × Option (TeaCache.Coordinator (Tensor R) F)) :=
  forwardWith ops (planOf env blocks call) coordinator blocks call

end Forward

/-! ## What is asked of a plan -/

def Arg.Fits (n : Nat) : Arg R → Prop
  | .other _ => True
  | .tensor rows => rows.length = n ∨ rows.length = 1

structure Call.Fits (call : Call R) : Prop where
  audio : call.hidden.audio.length = call.batchSize
  tensor : ∀ name, (call.inputs.tensor name).Fits call.batchSize
  rotary : ∀ name, ∀ pe ∈ call.inputs.rotary name, pe.1.Fits call.batchSize ∧ pe.2.Fits call.batchSize

/-- The conditional and the perturbed row are given the same inputs. -/
structure Call.Agrees (call : Call R) : Prop where
  video : call.hidden.video[condIdx]? = call.hidden.video[perturbedIdx]?
  audio : call.hidden.audio[condIdx]? = call.hidden.audio[perturbedIdx]?
  inputs : call.inputs.row condIdx = call.inputs.row perturbedIdx

end PrefixShare

end Ltx2
