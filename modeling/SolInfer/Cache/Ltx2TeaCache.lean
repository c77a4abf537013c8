import SolInfer.Cache.Residual.Proofs
import SolInfer.Cache.Ltx2Context

set_option autoImplicit false

/-! # The TeaCache of LTX-2

`cache/ltx2_teacache.py`, and its calls in the forward pass of `models/dits/ltx_2.py`. The coordinator
gets no notice of a new request: it forgets its entries at a step 0 that does not follow another call of
that step. Video and audio go through the layers together, so their residuals are kept as a pair. -/

namespace Ltx2

open Residual

variable {H F : Type}

/-- `_runtime_context`: the position and the pass, with defaults outside of a forward context. The number
    of steps is not used. -/
def runtimeContext (context : Option ForwardContext) : Position × String :=
  match context with
  | none => (⟨"stage1", 0⟩, "default")
  | some context =>
    (context.position, (context.forwardBatch.bind ForwardBatch.ltx2PassId).getD "default")

namespace TeaCache

/-! ## The coordinator -/

/-- `LTX2TeaCacheConfig`. -/
structure Config (F : Type) [OfScientific F] where
  enabled : Bool := true
  threshold : F := 0.04
  startStep : Int := 6
  endStep : Option Int := none
  stage1Enabled : Bool := true
  stage2Enabled : Bool := false
  maxContinuousHits : Int := 1
  periodicRecomputeSteps : Int := 0
  includeAudio : Bool := true

/-- What is read of a tensor: its shape and element type, its elements as floats, and the relative
    distance of two lists of elements. -/
structure TensorOps (H F : Type) where
  shape : H → List Nat
  dtype : H → String
  flatten : H → List F
  relL1 : List F → List F → F

/-- The tuple of `_key`. -/
structure Key where
  stage : String
  passId : String
  shape : List Nat
  audioShape : List Nat
  dtype : String
  audioDtype : String
  skipVideoSelfAttnBlocks : List Int
  skipAudioSelfAttnBlocks : List Int
  disableA2vCrossAttn : Bool
  disableV2aCrossAttn : Bool
  perturbed : Bool
deriving DecidableEq, Repr

/-- The arguments of `lookup`, the forward context, and the transformer blocks of the call. -/
structure Call (H : Type) where
  context : Option ForwardContext
  hiddenStates : H
  audioHiddenStates : H
  temb : H
  tembAudio : H
  skipVideoSelfAttnBlocks : List Int := []
  skipAudioSelfAttnBlocks : List Int := []
  disableA2vCrossAttn : Bool := false
  disableV2aCrossAttn : Bool := false
  perturbed : Bool := false
  passId : Option String := none
  blocks : H × H → H × H

def Call.position (x : Call H) : Position := (runtimeContext x.context).1

variable [Add F] [LE F] [DecidableLE F] [OfScientific F]

structure Coordinator (H F : Type) [OfScientific F] where
  config : Config F
  entries : Dict Key (Entry (H × H) (List F) F) := .empty
  lastStageStep : Option Position := none

def Coordinator.reset (c : Coordinator H F) : Coordinator H F :=
  { c with entries := .empty, lastStageStep := none }

variable [Add H] [Sub H]
variable (ops : TensorOps H F) (config : Config F) (c : Coordinator H F) (x : Call H)

/-- Whether `lookup` takes a call for the first of a request. -/
def startsOver (position : Position) : Bool :=
  match c.lastStageStep with
  | none => false
  | some last => decide (position.step = 0) && decide (last ≠ ⟨position.stage, 0⟩)

def feature (temb tembAudio : H) : List F :=
  ops.flatten temb ++ if config.includeAudio then ops.flatten tembAudio else []

def key : Key where
  stage := x.position.stage
  passId := x.passId.getD (runtimeContext x.context).2
  shape := ops.shape x.hiddenStates
  audioShape := ops.shape x.audioHiddenStates
  dtype := ops.dtype x.hiddenStates
  audioDtype := ops.dtype x.audioHiddenStates
  skipVideoSelfAttnBlocks := x.skipVideoSelfAttnBlocks
  skipAudioSelfAttnBlocks := x.skipAudioSelfAttnBlocks
  disableA2vCrossAttn := x.disableA2vCrossAttn
  disableV2aCrossAttn := x.disableV2aCrossAttn
  perturbed := x.perturbed

def eligible (position : Position) : Bool :=
  if ¬ config.enabled then false
  else if position.stage = "stage1" ∧ ¬ config.stage1Enabled then false
  else if position.stage = "stage2" ∧ ¬ config.stage2Enabled then false
  else if position.step < config.startStep then false
  else if config.endStep.any (fun stop => stop ≤ position.step) then false
  else true

def policy : Policy F :=
  ⟨config.threshold, config.maxContinuousHits, config.periodicRecomputeSteps, false⟩

def featureOps : FeatureOps (List F) F where
  sameShape := fun previous feature => previous.length = feature.length
  distance := ops.relL1

def lookup : Decision Key (H × H) F × Coordinator H F :=
  let c := if startsOver c x.position then c.reset else c
  let (decision, entries) := Residual.lookup (policy c.config) (featureOps ops) c.entries
    (key ops x) (eligible c.config x.position) x.position.step
    (feature ops c.config x.temb x.tembAudio) (x.hiddenStates, x.audioHiddenStates)
  (decision, { c with entries := entries, lastStageStep := some x.position })

def store (decision : Decision Key (H × H) F) (context : Option ForwardContext)
    (original hidden : H × H) (temb tembAudio : H) : Coordinator H F :=
  let step := (runtimeContext context).1.step
  let entries := Residual.store (policy c.config) c.entries decision step
    (feature ops c.config temb tembAudio) (hidden - original)
  { c with entries := entries }

def visitOf : Visit Key (H × H) (List F) where
  key := key ops x
  step := x.position.step
  eligible := eligible c.config x.position
  feature := feature ops c.config x.temb x.tembAudio
  residual := x.blocks (x.hiddenStates, x.audioHiddenStates) - (x.hiddenStates, x.audioHiddenStates)
  clears := startsOver c x.position

/-- The part of `forward` around the transformer blocks. -/
def forward : Answer Key (H × H) (List F) F × Coordinator H F :=
  let original := (x.hiddenStates, x.audioHiddenStates)
  let (decision, c') := lookup ops c x
  let record := ⟨visitOf ops c x, decision.verdict⟩
  match decision.hidden with
  | some hidden => (⟨record, original, hidden⟩, c')
  | none =>
    let hidden := x.blocks original
    (⟨record, original, hidden⟩, store ops c' decision x.context original hidden x.temb x.tembAudio)

/-! ## The entries -/

/-- **The coordinator is a residual cache** that forgets its entries where it starts over. -/
theorem forward_eq_forwardPass :
    forward ops c x =
      let (answer, entries) := forwardPass (policy c.config) (featureOps ops) c.entries
        (visitOf ops c x) (x.hiddenStates, x.audioHiddenStates)
        (x.blocks (x.hiddenStates, x.audioHiddenStates))
      (answer, { c with entries := entries, lastStageStep := some x.position }) := by
  cases hover : startsOver c x.position with
  | false =>
    have hfound : found c.entries (visitOf ops c x) = c.entries := by simp [found, visitOf, hover]
    simp only [forward, forwardPass, lookup, store, hfound, hover, Bool.false_eq_true, if_false]
    simp only [visitOf]
    generalize Residual.lookup (policy c.config) (featureOps ops) c.entries _ _ _ _ _ = result
    obtain ⟨⟨shouldSkip, key, verdict, hidden⟩, entries⟩ := result
    cases hidden <;> rfl
  | true =>
    have hfound : found c.entries (visitOf ops c x) = .empty := by simp [found, visitOf, hover]
    simp only [forward, forwardPass, lookup, store, hfound, hover, if_true, Coordinator.reset]
    simp only [visitOf]
    generalize Residual.lookup (policy c.config) (featureOps ops)
      (.empty : Dict Key (Entry (H × H) (List F) F)) _ _ _ _ _ = result
    obtain ⟨⟨shouldSkip, key, verdict, hidden⟩, entries⟩ := result
    cases hidden <;> rfl

end TeaCache

end Ltx2
