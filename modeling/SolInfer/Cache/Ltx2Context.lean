import Mathlib.Algebra.Order.Floor.Ring

set_option autoImplicit false

/-! # The forward context of LTX-2

What the LTX-2 coordinators read of the forward context. A missing attribute is `none`. -/

namespace Ltx2

/-- What is read of `attn_metadata`. -/
structure AttnMetadata where
  ltx2Stage : Option String
  ltx2NumSteps : Option Int

/-- What is read of `forward_batch`. -/
structure ForwardBatch where
  ltx2Stage : Option String
  stage : Option String
  numInferenceSteps : Option Int
  isCfgNegative : Bool
  doClassifierFreeGuidance : Bool
  ltx2PassId : Option String

structure ForwardContext where
  attnMetadata : Option AttnMetadata
  forwardBatch : Option ForwardBatch
  currentTimestep : Option Int

structure Position where
  stage : String
  step : Int
deriving DecidableEq, Repr

/-- `getattr(b, "ltx2_stage", None) or getattr(b, "stage", None)`. -/
def ForwardBatch.stageOf (b : ForwardBatch) : Option String :=
  match b.ltx2Stage with
  | some stage => if stage = "" then b.stage else some stage
  | none => b.stage

variable (context : ForwardContext)

/-- The stage: of the metadata, of the batch, or `"stage1"`. -/
def ForwardContext.stage : String :=
  match context.attnMetadata.bind AttnMetadata.ltx2Stage with
  | some stage => stage
  | none => (context.forwardBatch.bind ForwardBatch.stageOf).getD "stage1"

/-- The number of steps: of the metadata if it is positive, else of the batch. -/
def ForwardContext.numSteps : Int :=
  let numSteps := (context.attnMetadata.bind AttnMetadata.ltx2NumSteps).getD 0
  match context.forwardBatch with
  | some batch => if numSteps ≤ 0 then batch.numInferenceSteps.getD 0 else numSteps
  | none => numSteps

def ForwardContext.position : Position :=
  ⟨context.stage, context.currentTimestep.getD 0⟩

end Ltx2
