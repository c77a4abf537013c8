import Mathlib.Algebra.Order.Group.Nat
import Mathlib.Data.List.Infix

set_option autoImplicit false

/-! # Admission to a batch

`managers/dynamic_batch_admission.py`: how large a batch may become is capped by rules that depend on the
model, the resolution and the device. Costs are numbers of any linear order with an addition. -/

namespace Scheduler

variable {σ ρ F : Type}

/-- A request, as far as batching reads it. `rest` is what else the estimate of its cost depends on. -/
structure Req (σ ρ : Type) where
  isWarmup : Bool
  /-- `isinstance(prompt, str)` -/
  promptIsStr : Bool
  imagePath : Option String
  returnFilePathsOnly : Bool
  /-- What `_get_cached_signature` gives. -/
  signature : Option σ
  width : Option Int
  height : Option Int
  rest : ρ
deriving DecidableEq, Repr

def Req.resolutionKey (req : Req σ ρ) : Option String :=
  match req.width, req.height with
  | some width, some height => some (toString width ++ "x" ++ toString height)
  | _, _ => none

/-! ## Rules -/

inductive RejectReason (F : Type) where
  | configCap (cap : Int)
  | costBudget (cost budget : F)
deriving DecidableEq, Repr

structure AdmissionLimit (F : Type) where
  maxBatchSize : Int
  maxCost : Option F := none
  capReason : Option (RejectReason F) := none
deriving DecidableEq, Repr

/-- `BatchingRule`; `validate` refuses rules without a positive size. -/
structure BatchingRule (F : Type) where
  model : Option String := none
  modelContains : Option String := none
  resolution : Option String := none
  deviceMemoryGbMin : Option F := none
  deviceMemoryGbMax : Option F := none
  offload : Option Bool := none
  maxBatchSize : Int
  maxCost : Option F := none
  maxBatchSize_pos : 1 ≤ maxBatchSize

variable [LinearOrder F]

def AdmissionLimit.rejectReason (limit : AdmissionLimit F) (batchSize : Int) (batchCost : F) :
    Option (RejectReason F) :=
  if limit.maxBatchSize < batchSize then
    some (limit.capReason.getD (.configCap limit.maxBatchSize))
  else
    match limit.maxCost with
    | some maxCost => if maxCost < batchCost then some (.costBudget batchCost maxCost) else none
    | none => none

/-- `matches`. -/
def BatchingRule.applies (rule : BatchingRule F) (modelPath : String) (resolution : Option String)
    (deviceMemoryGb : Option F) (offload : Bool) : Bool :=
  if rule.model.any (fun model => model ≠ modelPath) then false
  else if rule.modelContains.any (fun part => ¬ part.toList <:+: modelPath.toList) then false
  else if rule.resolution ≠ none ∧ rule.resolution ≠ some "*" ∧ rule.resolution ≠ resolution then false
  else if rule.offload.any (fun flag => flag ≠ offload) then false
  else
    match deviceMemoryGb with
    | none => true
    | some memory =>
      if rule.deviceMemoryGbMin.any (fun least => memory < least) then false
      else if rule.deviceMemoryGbMax.any (fun most => most < memory) then false
      else true

/-! ## The controller -/

/-- `BatchAdmissionController`, with the `estimate_request_cost` of the pipeline. -/
structure Controller (σ ρ F : Type) where
  mode : String := "dynamic"
  userMaxBatchSize : Int
  modelPath : String
  offload : Bool := false
  deviceMemoryGb : Option F := none
  rules : List (BatchingRule F) := []
  estimateRequestCost : Req σ ρ → F

namespace Controller

variable (c : Controller σ ρ F)

def enabled : Bool := decide (c.mode = "dynamic") && decide (1 < c.userMaxBatchSize)

def matchingRules (req : Req σ ρ) : List (BatchingRule F) :=
  c.rules.filter fun rule => rule.applies c.modelPath req.resolutionKey c.deviceMemoryGb c.offload

def limitFor (req : Req σ ρ) : AdmissionLimit F :=
  let rules := c.matchingRules req
  match (rules.map BatchingRule.maxBatchSize).min? with
  | none => { maxBatchSize := c.userMaxBatchSize }
  | some configCap =>
    let maxBatchSize := min c.userMaxBatchSize configCap
    { maxBatchSize := max 1 maxBatchSize
      maxCost := (rules.filterMap BatchingRule.maxCost).min?
      capReason := if maxBatchSize < c.userMaxBatchSize then some (.configCap maxBatchSize) else none }

variable [Add F] [Zero F]

def estimateBatchCost (reqs : List (Req σ ρ)) : F :=
  (reqs.map c.estimateRequestCost).foldl (· + ·) 0

def rejectReasonForCandidate (currentReqs : List (Req σ ρ)) (candidate : Req σ ρ) :
    Option (RejectReason F) :=
  if ¬ c.enabled then none
  else
    let proposed := currentReqs ++ [candidate]
    match proposed with
    | [] => none
    | first :: _ =>
      (c.limitFor first).rejectReason proposed.length (c.estimateBatchCost proposed)

/-- Whether another request like the first would be too many. -/
def batchIsFull (reqs : List (Req σ ρ)) : Bool :=
  match reqs with
  | [] => decide (c.userMaxBatchSize ≤ 0)
  | first :: _ =>
    if ¬ c.enabled then decide (c.userMaxBatchSize ≤ reqs.length)
    else
      let limit := c.limitFor first
      if limit.maxBatchSize ≤ reqs.length then true
      else limit.maxCost.any fun maxCost => maxCost < c.estimateBatchCost (reqs ++ [first])

end Controller

end Scheduler
