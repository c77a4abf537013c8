import SolInfer.Cache.Residual.Proofs

set_option autoImplicit false

/-! # The TeaCache of Cosmos3

`cache/cosmos3_teacache.py`, and its calls in the forward pass of `models/dits/cosmos3video.py`. Tensors
are kept abstract; `detach` and `clone` do not change their values. -/

namespace Cosmos3

open Residual

variable {H F : Type}

/-- `Cosmos3TeaCacheConfig`. -/
structure Config (F : Type) [OfScientific F] where
  enabled : Bool := true
  threshold : F := 0.04
  startStep : Int := 5
  endStep : Option Int := none
  maxContinuousHits : Int := 1
  periodicRecomputeSteps : Int := 0
  coefficients : List F := [1.0, 0.0]

/-- What is read of a tensor: its shape and element type, and the relative distance `_rel_l1` of two,
    averaged over the sequence-parallel group. -/
structure TensorOps (H F : Type) where
  shape : H → List Nat
  dtype : H → String
  relL1 : H → H → F

/-- The tuple of `_key`. -/
structure Key where
  cacheKey : String
  shape : List Nat
  dtype : String
  noisyFrameMaskPresent : Bool
  sequenceShardEnabled : Bool
deriving DecidableEq, Repr

/-- The arguments of `lookup`, and the layers of the call. -/
structure Call (H : Type) where
  hiddenGen : H
  cacheKey : String
  step : Int
  numInferenceSteps : Option Int
  noisyFrameMaskPresent : Bool := false
  sequenceShardEnabled : Bool := false
  /-- `gen_layers`. -/
  layers : H → H

variable [Add F] [Mul F] [LT F] [LE F] [DecidableLT F] [DecidableLE F] [OfScientific F]

def poly1d (coefficients : List F) (x : F) : F :=
  coefficients.foldl (fun value coefficient => value * x + coefficient) 0.0

/-- The distance after its calibration: `max(0.0, _poly1d(...))`. -/
def rescale (config : Config F) (relL1 : F) : F :=
  if 0.0 < poly1d config.coefficients relL1 then poly1d config.coefficients relL1 else 0.0

structure Coordinator (H F : Type) [OfScientific F] where
  config : Config F
  entries : Dict Key (Entry H H F)

variable [Add H] [Sub H]
variable (ops : TensorOps H F) (config : Config F) (c : Coordinator H F) (x : Call H)

def key : Key :=
  ⟨x.cacheKey, ops.shape x.hiddenGen, ops.dtype x.hiddenGen, x.noisyFrameMaskPresent,
    x.sequenceShardEnabled⟩

def eligible (step : Int) (numInferenceSteps : Option Int) : Bool :=
  if ¬ config.enabled then false
  else if step < config.startStep then false
  else if numInferenceSteps.any (fun n => n - 1 ≤ step) then false
  else if config.endStep.any (fun stop => stop ≤ step) then false
  else true

def policy : Policy F :=
  ⟨config.threshold, config.maxContinuousHits, config.periodicRecomputeSteps, true⟩

def featureOps : FeatureOps H F where
  sameShape := fun previous feature => ops.shape previous = ops.shape feature
  distance := fun feature previous => rescale config (ops.relL1 feature previous)

def lookup : Decision Key H F × Coordinator H F :=
  let (decision, entries) := Residual.lookup (policy c.config) (featureOps ops c.config) c.entries
    (key ops x) (eligible c.config x.step x.numInferenceSteps) x.step x.hiddenGen x.hiddenGen
  (decision, { c with entries := entries })

def store (decision : Decision Key H F) (originalHiddenGen hiddenGen : H) (step : Int) : Coordinator H F :=
  let residual := hiddenGen - originalHiddenGen
  let entries := Residual.store (policy c.config) c.entries decision step originalHiddenGen residual
  { c with entries := entries }

def visitOf : Visit Key H H where
  key := key ops x
  step := x.step
  eligible := eligible config x.step x.numInferenceSteps
  feature := x.hiddenGen
  residual := x.layers x.hiddenGen - x.hiddenGen
  clears := false

/-- The part of `forward` around the layers. -/
def forward : Answer Key H H F × Coordinator H F :=
  let (decision, c') := lookup ops c x
  let record := ⟨visitOf ops c.config x, decision.verdict⟩
  match decision.hidden with
  | some hidden => (⟨record, x.hiddenGen, hidden⟩, c')
  | none =>
    let hidden := x.layers x.hiddenGen
    (⟨record, x.hiddenGen, hidden⟩, store c' decision x.hiddenGen hidden x.step)

/-! ## The entries -/

/-- **The coordinator is a residual cache.** -/
theorem forward_eq_forwardPass :
    forward ops c x =
      let (answer, entries) := forwardPass (policy c.config) (featureOps ops c.config) c.entries
        (visitOf ops c.config x) x.hiddenGen (x.layers x.hiddenGen)
      (answer, { c with entries := entries }) := by
  have hfound : found c.entries (visitOf ops c.config x) = c.entries := rfl
  simp only [forward, forwardPass, lookup, store, hfound]
  simp only [visitOf]
  generalize Residual.lookup (policy c.config) (featureOps ops c.config) c.entries (key ops x)
    (eligible c.config x.step x.numInferenceSteps) x.step x.hiddenGen x.hiddenGen = result
  obtain ⟨⟨shouldSkip, key, verdict, hidden⟩, entries⟩ := result
  cases hidden <;> rfl

end Cosmos3
