import SolInfer.Lib.Python
import SolInfer.Lib.Run

set_option autoImplicit false

/-! # The stage-1 cache controller of LTX-2

`cache/ltx2_stage1_cache_core.py`: the denoiser is skipped on the calls that a method selects, and its
output is replaced by one put together from earlier outputs. Tensors are kept abstract, without their
devices and element types; parameters have the types that the code converts them to. -/

namespace Stage1

variable {T F : Type}

/-! ## The controller -/

/-- The `method`; every other name is refused by `should_skip`. -/
inductive Method where
  | fixedskip
  | periodic
  | delta
  | ema
  | similarity
  | teacache
  | easycache
  | lazycache
  | unknown (name : String)
deriving DecidableEq, Repr

/-- The `reuse_mode` of the method `fixedskip`; every other name acts like `last`. -/
inductive ReuseMode where
  | last
  | delta
  | ema
  | residual
  | blendEmaLast
deriving DecidableEq, Repr

structure Params (F : Type) [OfScientific F] where
  maxSkipSteps : Int := 1
  startPercent : F := 0.0
  endPercent : F := 1.0
  warmupSteps : Int := 1
  interval : Int := 1
  skipIndices : List Int := []
  subsampleFactor : Int := 8
  similarityThreshold : F := 0.05
  relL1Thresh : F := 0.4
  reuseThreshold : F := 0.2
  reuseMode : ReuseMode := .last
  blendAlpha : F := 0.5
  deltaScale : F := 1.0
  emaDecay : F := 0.5

/-- What is taken from torch: subsampling, the mean of the absolute values and of the absolute
    differences, and that difference relative to the second tensor. -/
structure TensorOps (T F : Type) where
  subsample : Int → T → T
  meanAbs : T → F
  meanAbsDiff : T → T → F
  relChange : T → T → F
  abs : F → F

/-- What a run can change. The tensors are `none` until they are set. -/
structure State (T F : Type) where
  totalCalls : Int
  realCalls : Int
  skippedCalls : Int
  lastX : Option T
  lastVideoOutput : Option T
  lastAudioOutput : Option T
  previousVideoOutput : Option T
  previousAudioOutput : Option T
  emaVideoOutput : Option T
  emaAudioOutput : Option T
  cacheVideoDiff : Option T
  cacheAudioDiff : Option T
  outputPrevSubsampled : Option T
  xPrevSubsampled : Option T
  outputPrevNorm : Option F
  relativeTransformationRate : Option F
  cumulativeChangeRate : F
  accumulatedRelL1Distance : F
  skippedInARow : Int

/-- `__init__`. -/
def State.new [OfScientific F] : State T F :=
  ⟨0, 0, 0, none, none, none, none, none, none, none, none, none, none, none, none, none, 0.0, 0.0, 0⟩

structure Controller (F : Type) [OfScientific F] where
  method : Method
  params : Params F
  expectedCalls : Int

variable [Add F] [Sub F] [Mul F] [Div F] [LT F] [LE F] [DecidableLT F] [DecidableLE F]
  [OfScientific F] [IntCast F] [Pow F Nat] [Add T] [Sub T] [SMul F T]

/-! ## Deciding -/

/-- `FLUX_TEACACHE_COEFFICIENTS`, with a difference from zero for a negative one. -/
def fluxTeacacheCoefficients : List F :=
  [4.98651651e2, 0.0 - 2.83781631e2, 5.58554382e1, 0.0 - 3.82021401, 2.64230861e-1]

def poly1d (coefficients : List F) (x : F) : F :=
  (coefficients.zipIdx).foldl
    (fun result (coeff, index) => result + coeff * x ^ (coefficients.length - 1 - index)) 0.0

/-- `min(max(x, 0.0), 1.0)`. -/
def clamp (x : F) : F :=
  let x := if x < 0.0 then 0.0 else x
  if 1.0 < x then 1.0 else x

variable (ops : TensorOps T F) (c : Controller F) (s : State T F)

def progress : F :=
  if c.expectedCalls ≤ 1 then 1.0
  else clamp (((s.totalCalls - 1 : Int) : F) / ((c.expectedCalls - 1 : Int) : F))

def inWindow : Bool :=
  decide (c.params.startPercent ≤ progress c s) && decide (progress c s < c.params.endPercent)

def canSkipCommon : Bool :=
  if s.totalCalls ≤ 1 then false
  else if c.expectedCalls ≤ s.totalCalls then false
  else if ¬ inWindow c s then false
  else if c.params.maxSkipSteps ≤ s.skippedInARow then false
  else s.lastVideoOutput.isSome

def scheduleSkip : Bool :=
  let interval := max c.params.interval 1
  if s.totalCalls ≤ c.params.warmupSteps then false
  else decide ((s.totalCalls - c.params.warmupSteps - 1) % interval = 0)

/-- The branch of `should_skip` for the method `similarity`. -/
def similaritySkip (x : T) : Bool :=
  match s.lastX with
  | none => false
  | some lastX =>
    if s.totalCalls ≤ c.params.warmupSteps then false
    else
      let current := ops.subsample c.params.subsampleFactor x
      let previous := ops.subsample c.params.subsampleFactor lastX
      decide (ops.relChange current previous < c.params.similarityThreshold)

/-- The branch for `teacache`, which keeps every input it sees. -/
def teacacheSkip (x : T) : Bool × State T F :=
  match s.lastX, s.cacheVideoDiff with
  | some lastX, some _ =>
    let relL1 := ops.relChange x lastX
    let accumulated :=
      s.accumulatedRelL1Distance + ops.abs (poly1d fluxTeacacheCoefficients relL1)
    (decide (accumulated < c.params.relL1Thresh),
      { s with accumulatedRelL1Distance := accumulated, lastX := some x })
  | _, _ => (false, { s with lastX := some x, accumulatedRelL1Distance := 0.0 })

/-- The branch for `easycache` and `lazycache`. -/
def easycacheSkip (x : T) : Bool × State T F :=
  match s.xPrevSubsampled, s.outputPrevNorm, s.relativeTransformationRate with
  | some previous, some norm, some rate =>
    let current := ops.subsample c.params.subsampleFactor x
    let inputChange := ops.meanAbsDiff current previous
    let approx := rate * inputChange / (if norm < 1e-6 then 1e-6 else norm)
    let cumulative := s.cumulativeChangeRate + approx
    (decide (cumulative < c.params.reuseThreshold), { s with cumulativeChangeRate := cumulative })
  | _, _, _ => (false, s)

def shouldSkip (x : T) : Except PyError (Bool × State T F) :=
  let s := { s with totalCalls := s.totalCalls + 1 }
  if ¬ canSkipCommon c s then .ok (false, s)
  else
    match c.method with
    | .fixedskip => .ok (decide (s.totalCalls - 1 ∈ c.params.skipIndices), s)
    | .periodic | .delta | .ema => .ok (scheduleSkip c s, s)
    | .similarity => .ok (similaritySkip ops c s x, s)
    | .teacache => .ok (teacacheSkip ops c s x)
    | .easycache | .lazycache => .ok (easycacheSkip ops c s x)
    | .unknown name => .error (.valueError ("unknown cache method: " ++ name))

/-! ## Reusing -/

/-- A tensor that the code uses without a test. -/
def required (tensor : Option T) : Except PyError T :=
  match tensor with
  | some tensor => .ok tensor
  | none => .error (.typeError "unsupported operand: None")

/-- The outputs of a call: the video, and the audio if there is one. -/
structure Outputs (T : Type) where
  video : T
  audio : Option T
deriving DecidableEq, Repr

/-- The mode of the method `fixedskip`. -/
def Controller.fixedMode : Option ReuseMode :=
  if c.method = .fixedskip then some c.params.reuseMode else none

/-- `blend_ema_last`. -/
def blended (emaVideo : T) (audioX : Option T) :
    Except PyError (Outputs T) := do
  let alpha := clamp c.params.blendAlpha
  let last ← required s.lastVideoOutput
  let blend (last ema : T) : T := (1.0 - alpha) • last + alpha • ema
  let audio :=
    match audioX, s.lastAudioOutput with
    | some _, some lastAudio =>
      match s.emaAudioOutput with
      | some emaAudio => some (blend lastAudio emaAudio)
      | none => some lastAudio
    | _, _ => none
  return ⟨blend last emaVideo, audio⟩

/-- `delta`: the last output, continued by a multiple of its change. -/
def extrapolated (previous : T) (audioX : Option T) :
    Except PyError (Outputs T) := do
  let last ← required s.lastVideoOutput
  let extrapolate (last previous : T) : T := last + c.params.deltaScale • (last - previous)
  let audio :=
    match audioX, s.lastAudioOutput with
    | some _, some lastAudio =>
      match s.previousAudioOutput with
      | some previousAudio => some (extrapolate lastAudio previousAudio)
      | none => some lastAudio
    | _, _ => none
  return ⟨extrapolate last previous, audio⟩

def shifted (videoDiff videoX : T) (audioX : Option T) : Outputs T :=
  let audio :=
    match audioX with
    | some audioX =>
      match s.cacheAudioDiff with
      | some audioDiff => some (audioX + audioDiff)
      | none => s.lastAudioOutput
    | none => none
  ⟨videoX + videoDiff, audio⟩

def repeated (audioX : Option T) : Except PyError (Outputs T) := do
  let last ← required s.lastVideoOutput
  return ⟨last, if audioX.isSome then s.lastAudioOutput else none⟩

def Controller.isDelta : Bool :=
  decide (c.method = .delta) || decide (c.fixedMode = some .delta)

def Controller.isEma : Bool :=
  decide (c.method = .ema) || decide (c.fixedMode = some .ema)

def Controller.isResidual : Bool :=
  decide (c.method ∈ [Method.teacache, .easycache, .lazycache]) ||
    decide (c.fixedMode = some .residual)

/-- The outputs that `cached_outputs` puts together. -/
def reused (videoX : T) (audioX : Option T) : Except PyError (Outputs T) :=
  match if c.fixedMode = some .blendEmaLast then s.emaVideoOutput else none with
  | some emaVideo => blended c s emaVideo audioX
  | none =>
  match if c.isDelta then s.previousVideoOutput else none with
  | some previous => extrapolated c s previous audioX
  | none =>
  match if c.isEma then s.emaVideoOutput else none with
  | some emaVideo => .ok ⟨emaVideo, if audioX.isSome then s.emaAudioOutput else none⟩
  | none =>
  match if c.isResidual then s.cacheVideoDiff else none with
  | some videoDiff => .ok (shifted s videoDiff videoX audioX)
  | none => repeated s audioX

def State.skipping : State T F :=
  { s with skippedCalls := s.skippedCalls + 1, skippedInARow := s.skippedInARow + 1 }

def cachedOutputs (videoX : T) (audioX : Option T) :
    Except PyError (Outputs T × State T F) := do
  let outputs ← reused c s.skipping videoX audioX
  return (outputs, s.skipping)

/-! ## Updating -/

def averaged (average output : T) : T :=
  c.params.emaDecay • average + (1.0 - c.params.emaDecay) • output

/-- The part of `update` for the averages. -/
def updateEma (videoOutput : T) (audioOutput : Option T) : State T F :=
  match s.emaVideoOutput with
  | none => { s with emaVideoOutput := some videoOutput, emaAudioOutput := audioOutput }
  | some emaVideo =>
    let emaAudio :=
      match audioOutput, s.emaAudioOutput with
      | some audioOutput, some emaAudio => some (averaged c emaAudio audioOutput)
      | _, emaAudio => emaAudio
    { s with
      emaVideoOutput := some (averaged c emaVideo videoOutput)
      emaAudioOutput := emaAudio }

/-- The rate at which the output follows the input, measured against the previous computed call. -/
def updateRate (hadOutput : Bool) (videoX videoOutput : T) : State T F :=
  let x := ops.subsample c.params.subsampleFactor videoX
  let output := ops.subsample c.params.subsampleFactor videoOutput
  let rate :=
    match s.outputPrevSubsampled, s.xPrevSubsampled with
    | some outputPrev, some xPrev =>
      let outChange := ops.meanAbsDiff output outputPrev
      let inputChange := ops.meanAbsDiff x xPrev
      if hadOutput ∧ 1e-12 < inputChange then some (outChange / inputChange)
      else s.relativeTransformationRate
    | _, _ => s.relativeTransformationRate
  { s with
    relativeTransformationRate := rate
    xPrevSubsampled := some x
    outputPrevSubsampled := some output
    outputPrevNorm := some (ops.meanAbs videoOutput)
    cumulativeChangeRate := 0.0 }

/-- The part of `update` for the residuals. -/
def updateDiff (hadOutput : Bool) (videoX : T) (audioX : Option T) (videoOutput : T)
    (audioOutput : Option T) : State T F :=
  if c.method ∈ [Method.teacache, .easycache, .lazycache, .fixedskip] then
    let audioDiff :=
      match audioX, audioOutput with
      | some audioX, some audioOutput => some (audioOutput - audioX)
      | _, _ => s.cacheAudioDiff
    let s := { s with cacheVideoDiff := some (videoOutput - videoX), cacheAudioDiff := audioDiff }
    let s :=
      if c.method = .easycache ∨ c.method = .lazycache then
        updateRate ops c s hadOutput videoX videoOutput
      else s
    if c.method = .teacache then { s with accumulatedRelL1Distance := 0.0 } else s
  else s

/-- The part of `update` for the last outputs. -/
def updateLast (videoX videoOutput : T) (audioOutput : Option T) : State T F :=
  { s with
    previousVideoOutput := s.lastVideoOutput
    previousAudioOutput := s.lastAudioOutput
    lastVideoOutput := some videoOutput
    lastAudioOutput := audioOutput
    lastX := some videoX }

def update (videoX : T) (audioX videoOutput audioOutput : Option T) : State T F :=
  let s := { s with realCalls := s.realCalls + 1 }
  match videoOutput with
  | none => { s with skippedInARow := 0 }
  | some videoOutput =>
    let hadOutput := s.lastVideoOutput.isSome
    let s := updateLast s videoX videoOutput audioOutput
    let s := updateEma c s videoOutput audioOutput
    let s := updateDiff ops c s hadOutput videoX audioX videoOutput audioOutput
    { s with skippedInARow := 0 }

/-! ## Runs -/

/-- A call of the denoiser: its inputs, and the outputs that it gives if it is not skipped. -/
structure Call (T : Type) where
  x : T
  videoX : T
  audioX : Option T
  videoOutput : Option T
  audioOutput : Option T
deriving DecidableEq, Repr

/-- What became of a call: the outputs put together for it, if it was skipped. -/
structure Record (T : Type) where
  call : Call T
  reused : Option (Outputs T)
deriving DecidableEq, Repr

/-- One call: `should_skip`, and then `cached_outputs` or `update`. -/
def step (x : Call T) :
    Except PyError (Record T × State T F) := do
  let (skip, s) ← shouldSkip ops c s x.x
  if skip then
    let (outputs, s) ← cachedOutputs c s x.videoX x.audioX
    return (⟨x, some outputs⟩, s)
  else
    return (⟨x, none⟩, update ops c s x.videoX x.audioX x.videoOutput x.audioOutput)

/-- A run keeps its history; it ends where a call raises. -/
def logStep (s : State T F × List (Record T)) (x : Call T) : Option (State T F × List (Record T)) :=
  match step ops c s.1 x with
  | .ok (r, s') => some (s', r :: s.2)
  | .error _ => none

/-! ## What the controller promises -/

def Record.isSkipped (r : Record T) : Bool := r.reused.isSome

/-- The video and audio outputs of the computed calls that had a video output, the newest first. -/
def produced (history : List (Record T)) : List (Outputs T) :=
  history.filterMap (fun r =>
    if r.isSkipped then none else r.call.videoOutput.map (fun video => ⟨video, r.call.audioOutput⟩))

/-- The computed calls, the newest first. -/
def computed (history : List (Record T)) : List (Record T) :=
  history.filter fun r => !r.isSkipped

def Controller.isLast : Bool :=
  decide (c.method = .periodic) || decide (c.method = .similarity) ||
    decide (c.fixedMode = some .last)

def audioFor (x : Call T) (audio : Option T) : Option T := if x.audioX.isSome then audio else none

/-- The audio continued by a multiple of its change, where two are known. -/
def extrapolatedAudio (last previous : Option T) : Option T :=
  match last, previous with
  | some last, some previous => some (last + c.params.deltaScale • (last - previous))
  | last, _ => last

/-- What a skipped call must keep. -/
structure Safe (c : Controller F) (x : Call T) (outputs : Outputs T) (earlier : List (Record T)) :
    Prop where
  /-- The first call and those from `expected_calls` on are computed. -/
  inside : 1 ≤ earlier.length ∧ (earlier.length : Int) + 1 < c.expectedCalls
  streak : ((earlier.takeWhile Record.isSkipped).length : Int) + 1 ≤ c.params.maxSkipSteps
  /-- Some computed call had a video output. -/
  available : produced earlier ≠ []
  last : c.isLast = true → ∀ o ∈ (produced earlier).head?, outputs = ⟨o.video, audioFor x o.audio⟩
  delta : c.isDelta = true → ∀ o p rest, produced earlier = o :: p :: rest →
    outputs = ⟨o.video + c.params.deltaScale • (o.video - p.video),
      audioFor x (extrapolatedAudio c o.audio p.audio)⟩
  /-- With a single output there is no change to continue. -/
  deltaOnce : c.isDelta = true → ∀ o, produced earlier = [o] → outputs = ⟨o.video, audioFor x o.audio⟩

end Stage1
