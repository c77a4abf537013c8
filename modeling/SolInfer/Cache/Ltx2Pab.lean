import SolInfer.Cache.Ltx2Context
import SolInfer.Lib.Dict

set_option autoImplicit false

/-! # Pyramid attention broadcast of LTX-2

`cache/ltx2_pab.py`: the output of an attention module is broadcast to the following steps, as many as
its window allows. Like the TeaCache of LTX-2, the coordinator takes a step 0 that follows another step
for the beginning of a request. Fractions are rational; the counters of `LTX2PABStats` are left out. -/

namespace Ltx2.Pab

variable {V : Type}

/-! ## Configuration -/

inductive AttentionKind where
  | videoSelf
  | audioSelf
  | promptVideo
  | promptAudio
  | audioToVideo
  | videoToAudio
deriving DecidableEq, Repr

inductive Bucket where
  | spatial
  | temporal
  | cross
deriving DecidableEq, Repr

/-- `_DEFAULT_KIND_WINDOWS`. -/
def defaultKindWindow : AttentionKind → Bucket
  | .videoSelf => .spatial
  | .audioSelf => .temporal
  | .promptVideo => .cross
  | .promptAudio => .cross
  | .audioToVideo => .spatial
  | .videoToAudio => .spatial

/-- `LTX2PABConfig`. -/
structure Config where
  enabled : Bool := true
  spatialBroadcastWindow : Int := 2
  temporalBroadcastWindow : Int := 4
  crossBroadcastWindow : Int := 6
  warmupSteps : Int := 0
  activeStartStep : Option Int := none
  activeEndStep : Option Int := none
  activeStartFraction : Option ℚ := some 0.15
  activeEndFraction : Option ℚ := some 0.85
  stage1Enabled : Bool := true
  stage2Enabled : Bool := false
  stage2SpatialBroadcastWindow : Int := 1
  stage2TemporalBroadcastWindow : Int := 1
  stage2CrossBroadcastWindow : Int := 1
  stage2ActiveStartStep : Option Int := none
  stage2ActiveEndStep : Option Int := none
  stage2ActiveStartFraction : Option ℚ := none
  stage2ActiveEndFraction : Option ℚ := none
  disableAudioSelf : Bool := false
  disableAudioVideoCross : Bool := true
  disableWhenPerturbed : Bool := true
  perKindWindowOverrides : AttentionKind → Option Int := fun _ => none

/-- `LTX2PABRuntimeContext`. -/
structure RuntimeContext where
  currentStep : Int
  numInferenceSteps : Int
  stage : String := "stage1"
  branch : String := "default"
  passId : String := "default"
deriving DecidableEq, Repr

structure MaskSignature where
  shape : List Nat
  dtype : String
  device : String
deriving DecidableEq, Repr

/-- `LTX2PABCacheKey`. -/
structure Key where
  stage : String
  branch : String
  passId : String
  blockIdx : Int
  attentionKind : AttentionKind
  maskSignature : Option MaskSignature
deriving DecidableEq, Repr

/-- `LTX2PABEntry`. -/
structure Entry (V : Type) where
  output : V
  sourceStep : Int
  window : Int
deriving DecidableEq, Repr

structure Coordinator (V : Type) where
  config : Config := {}
  cache : Dict Key (Entry V) := .empty
  lastStep : Option Int := none
  manualContext : Option RuntimeContext := none

/-- A call of a wrapped attention module: the forward context, what is read of its keyword arguments, and
    the output that the module itself would give. -/
structure Call (V : Type) where
  forwardContext : Option ForwardContext
  blockIdx : Int
  attentionKind : AttentionKind
  mask : Option MaskSignature
  allPerturbed : Bool
  perturbationMask : Bool
  attention : V

variable (config : Config) (c : Coordinator V) (ctx : RuntimeContext) (x : Call V)

def Coordinator.reset : Coordinator V :=
  { c with cache := .empty, lastStep := none }

def Coordinator.beginStep : Coordinator V :=
  { c with manualContext := some ctx }

def Coordinator.endRequest : Coordinator V :=
  { c with manualContext := none }.reset

/-! ## The window -/

/-- `int(x)`. -/
def truncate (x : ℚ) : Int := if 0 ≤ x then ⌊x⌋ else ⌈x⌉

def withinActiveSegment : Bool :=
  let (start, stop, startFraction, endFraction) :=
    if ctx.stage = "stage2" then
      (config.stage2ActiveStartStep, config.stage2ActiveEndStep,
        config.stage2ActiveStartFraction, config.stage2ActiveEndFraction)
    else
      (config.activeStartStep, config.activeEndStep, config.activeStartFraction, config.activeEndFraction)
  let start := start.or (startFraction.map (fun f => truncate (ctx.numInferenceSteps * f)))
  let stop := stop.or (endFraction.map (fun f => truncate (ctx.numInferenceSteps * f)))
  if start.any (fun start => ctx.currentStep < start) then false
  else if stop.any (fun stop => stop ≤ ctx.currentStep) then false
  else true

def windowFor (stage : String) (kind : AttentionKind) : Int :=
  match config.perKindWindowOverrides kind with
  | some override => max 1 override
  | none =>
    max 1 (if stage = "stage2" then
      match defaultKindWindow kind with
      | .spatial => config.stage2SpatialBroadcastWindow
      | .temporal => config.stage2TemporalBroadcastWindow
      | .cross => config.stage2CrossBroadcastWindow
    else
      match defaultKindWindow kind with
      | .spatial => config.spatialBroadcastWindow
      | .temporal => config.temporalBroadcastWindow
      | .cross => config.crossBroadcastWindow)

/-- `_should_attempt_broadcast`, for a context. -/
def shouldAttemptBroadcast : Bool :=
  if ¬ config.enabled then false
  else if ctx.stage = "stage1" ∧ ¬ config.stage1Enabled then false
  else if ctx.stage = "stage2" ∧ ¬ config.stage2Enabled then false
  else if ctx.currentStep < config.warmupSteps then false
  else if ¬ withinActiveSegment config ctx then false
  else if windowFor config ctx.stage x.attentionKind ≤ 1 then false
  else if config.disableAudioSelf ∧ x.attentionKind = .audioSelf then false
  else if config.disableAudioVideoCross ∧
      (x.attentionKind = .audioToVideo ∨ x.attentionKind = .videoToAudio) then false
  else if config.disableWhenPerturbed ∧ (x.allPerturbed ∨ x.perturbationMask) then false
  else true

/-! ## Calls -/

def contextFromForwardContext (context : ForwardContext) : RuntimeContext :=
  let branch :=
    match context.forwardBatch with
    | none => "default"
    | some batch =>
      if batch.isCfgNegative then "negative"
      else if batch.doClassifierFreeGuidance then "positive"
      else "default"
  let passId := (context.forwardBatch.bind ForwardBatch.ltx2PassId).getD branch
  ⟨context.position.step, context.numSteps, context.stage, branch, passId⟩

/-- The context of a call: the one given to `begin_step`, or that of the forward pass. -/
def Coordinator.contextOf : Option RuntimeContext :=
  c.manualContext.or (x.forwardContext.map contextFromForwardContext)

/-- Whether a call is taken for the first of a request. -/
def startsOver : Bool :=
  decide (ctx.currentStep = 0) && c.lastStep.any fun last => last ≠ 0

/-- The rest of `_get_runtime_context`. -/
def Coordinator.enter : Coordinator V :=
  let cache := if startsOver c ctx then .empty else c.cache
  { c with cache := cache, lastStep := some ctx.currentStep }

def key : Key :=
  ⟨ctx.stage, ctx.branch, ctx.passId, x.blockIdx, x.attentionKind, x.mask⟩

/-- What a call gave, and what it took from the cache or put there. -/
structure Answer (V : Type) where
  output : V
  returned : Option (Entry V) := none
  stored : Option (Entry V) := none
deriving DecidableEq, Repr

/-- The part of `forward_attention` behind the context. -/
def attend : Answer V × Coordinator V :=
  if ¬ shouldAttemptBroadcast c.config ctx x then ({ output := x.attention }, c)
  else
    let entry := ⟨x.attention, ctx.currentStep, windowFor c.config ctx.stage x.attentionKind⟩
    let computed := ({ output := x.attention, stored := some entry },
      { c with cache := c.cache.set (key ctx x) entry })
    match c.cache.get? (key ctx x) with
    | some held =>
      if ctx.currentStep - held.sourceStep < held.window then
        ({ output := held.output, returned := some held }, c)
      else computed
    | none => computed

def forwardAttention : Answer V × Coordinator V :=
  match c.contextOf x with
  | none => ({ output := x.attention }, c)
  | some ctx => attend (c.enter ctx) ctx x

end Ltx2.Pab
