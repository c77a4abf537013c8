import SolInfer.Efficiency.Compose
import SolInfer.Lib.Run

set_option autoImplicit false

/-! # Token pruning

`efficiency/techniques/token_prune.py`: the blocks run on the kept tokens of a segment only; their
results are scattered back and the dropped positions are filled in. A hidden tensor `[B, S, C]` is the
list of its `S` tokens, a token being a `[B, C]` slice. -/

variable {K T F : Type} [DecidableEq K]

/-! ## What is taken from torch -/

/-- The token scores of the content-aware methods: over the channels of a token, then averaged over the
    batch. -/
inductive ScoreKind where
  /-- `pow(2).sum(-1)` -/
  | sumSquares
  /-- `abs().sum(-1)` -/
  | sumAbs
  /-- `abs().amax(-1)` -/
  | maxAbs
  /-- `var(-1)` -/
  | variance
deriving DecidableEq, Repr

/-- The scoring and the selections of torch, with what the code relies on: `topk` gives the asked number
    of distinct positions, and `randperm` permutes the positions. -/
structure TokenOps (T F : Type) where
  score : ScoreKind → List T → List F
  topk : List F → Nat → List Nat
  randperm : Nat → List Nat
  score_length : ∀ kind tokens, (score kind tokens).length = tokens.length
  topk_length : ∀ scores k, k ≤ scores.length → (topk scores k).length = k
  topk_nodup : ∀ scores k, k ≤ scores.length → (topk scores k).Nodup
  topk_lt : ∀ scores k, k ≤ scores.length → ∀ i ∈ topk scores k, i < scores.length
  randperm_perm : ∀ n, (randperm n).Perm (List.range n)

/-- `round` of a float: to the nearest integer, a half to the even one. -/
def roundHalfEven (q : ℚ) : ℤ :=
  if q - ⌊q⌋ < 1 / 2 then ⌊q⌋
  else if 1 / 2 < q - ⌊q⌋ then ⌊q⌋ + 1
  else if ⌊q⌋ % 2 = 0 then ⌊q⌋
  else ⌊q⌋ + 1

/-- `x[:, start:stop]`. -/
def sliceTokens (tokens : List T) (start stop : Nat) : List T := (tokens.take stop).drop start

def indexSelect (tokens : List T) (idx : List Nat) : Except PyError (List T) :=
  idx.mapM (fun i => match tokens[i]? with
    | some t => .ok t
    | none => .error (.indexError "index out of range in self"))

/-- `full[:, idx, :] = values`. -/
def indexPut (full : List T) : List Nat → List T → Except PyError (List T)
  | [], [] => .ok full
  | i :: idx, t :: values =>
    if i < full.length then indexPut (full.set i t) idx values
    else .error (.indexError "index out of range in self")
  | _, _ => .error (.runtimeError "shape mismatch")

namespace TokenPrune

/-! ## Selection -/

def keepCount (numTokens : Nat) (keepRatio : ℚ) : Nat :=
  (max 1 (min (numTokens : ℤ) (roundHalfEven (numTokens * keepRatio)))).toNat

def uniformIndices (numTokens keep : Nat) : List Nat :=
  (List.range keep).map fun i => min (i * numTokens / keep) (numTokens - 1)

/-- The score of a content-aware method. -/
def methodScore (ops : TokenOps T F) (method : String) (hidden : List T)
    (prevVelocity : Option (List T)) : Option (List F) :=
  match method, prevVelocity with
  | "velocity", some velocity | "vel", some velocity => some (ops.score .sumSquares velocity)
  | "feat_norm", _ | "feat", _ | "norm", _ | "feat_l2", _ => some (ops.score .sumSquares hidden)
  | "feat_l1", _ => some (ops.score .sumAbs hidden)
  | "feat_linf", _ | "feat_max", _ => some (ops.score .maxAbs hidden)
  | "feat_var", _ => some (ops.score .variance hidden)
  | _, _ => none

def keepIndices (ops : TokenOps T F) (method : String) (numTokens : Nat) (keepRatio : ℚ)
    (hidden : List T) (prevVelocity : Option (List T) := none) : List Nat :=
  let keep := keepCount numTokens keepRatio
  if numTokens ≤ keep then List.range numTokens
  else
    match methodScore ops method hidden prevVelocity with
    | some scores => (ops.topk scores keep).mergeSort
    | none =>
      if method = "random" ∨ method = "rand" then ((ops.randperm numTokens).take keep).mergeSort
      else uniformIndices numTokens keep

/-! ## The technique -/

/-- `ModelSpec.segment`: the span of a model, or the whole sequence. -/
def segment (prunableSegment : Option (List T → TechniqueContext K → Nat × Nat)) (hidden : List T)
    (ctx : TechniqueContext K) : Nat × Nat :=
  match prunableSegment with
  | some f => f hidden ctx
  | none => (0, hidden.length)

end TokenPrune

/-- `TokenPrune`, and the segment of the model it runs on (`seq_dim` is 1). -/
structure TokenPrune (K T : Type) where
  keepRatio : Schedule ℚ := Schedule.const 1
  method : String := "feat_norm"
  compensation : String := "prev"
  enabled : Schedule Bool := Schedule.const true
  prunableSegment : Option (List T → TechniqueContext K → Nat × Nat) := none

namespace TokenPrune

/-- What `before_blocks` hands to `after_blocks`. -/
structure Carry (T : Type) where
  start : Nat
  stop : Nat
  idx : List Nat
  fullLength : Nat
  prevFull : Option (List T)

variable (plan : Plan K (List T) (List T) (Carry T)) (ops : TokenOps T F) (p : TokenPrune K T)
  (cacheKey : K)

/-- The scratch key: the bare cache key. -/
def key : String × K := ("", cacheKey)

/-- `ctx.scratch[ctx.cache_key] = tokens`. -/
def withStored (tokens : List T) (s : StepState K (List T) (List T)) : StepState K (List T) (List T) :=
  { s with scratch := s.scratch.set (key cacheKey) tokens }

def beforeBlocks (ctx : TechniqueContext K) (hidden : List T) :
    HookM K (List T) (List T) (List T × Option (Carry T)) := fun s =>
  let (start, stop) := segment p.prunableSegment hidden ctx
  let seg := sliceTokens hidden start stop
  let fullLength := seg.length
  let ratio := p.keepRatio.atStep ctx.step ctx.stage
  let prevFull := s.scratch.get? (key ctx.cacheKey)
  if prevFull.isNone ∧ p.compensation = "prev" then
    .ok ((hidden, none), withStored ctx.cacheKey seg s)
  else
    let idx := keepIndices ops p.method fullLength ratio seg
    match indexSelect seg idx with
    | .error e => .error e
    | .ok kept =>
      .ok ((hidden.take start ++ kept ++ hidden.drop stop,
        some ⟨start, stop, idx, fullLength, prevFull⟩), s)

/-- What the dropped positions are filled with: the previous segment, or zeros. -/
def blank [Zero T] (p : TokenPrune K T) (fullLength : Nat) : Option (List T) → List T
  | some prev => if p.compensation = "zero" then List.replicate fullLength 0 else prev
  | none => List.replicate fullLength 0

def afterBlocks [Zero T] (p : TokenPrune K T) (ctx : TechniqueContext K) (hidden : List T)
    (carry : Option (Carry T)) : HookM K (List T) (List T) (List T) := fun s =>
  match carry with
  | none =>
    let (start, stop) := segment p.prunableSegment hidden ctx
    .ok (hidden, withStored ctx.cacheKey (sliceTokens hidden start stop) s)
  | some ⟨start, _, idx, fullLength, prevFull⟩ =>
    let keptLength := idx.length
    let keptOut := sliceTokens hidden start (start + keptLength)
    match indexPut (p.blank fullLength prevFull) idx keptOut with
    | .error e => .error e
    | .ok full =>
      .ok (hidden.take start ++ full ++ hidden.drop (start + keptLength), withStored ctx.cacheKey full s)

/-- The technique of a plan; it is active only where the keep ratio is below one. -/
def technique [Zero T] (ops : TokenOps T F) (p : TokenPrune K T) :
    Technique K (List T) (List T) (Carry T) :=
  { name := "token_prune", phase := .preBlocks, reads := {.hiddenStates}
    writes := {.tokenSet, .hiddenStates}, requiredCapabilities := {.prunableTokens}
    enabled := p.enabled
    gate := ⟨fun step stage => decide (p.keepRatio.atStep step stage < 1)⟩
    beforeBlocks := beforeBlocks ops p
    afterBlocks := afterBlocks p }

/-! ## Runs of a plan -/

/-- One step of a run: where it stands, the tensor that reaches the blocks, and the blocks. -/
structure StepInput (T : Type) where
  step : Int
  stage : String
  hidden : List T
  blocks : List T → List T

structure Record (T : Type) where
  input : StepInput T
  output : List T

def context (x : StepInput T) : TechniqueContext K := ⟨x.step, x.stage, cacheKey⟩

/-- `Plan.before_blocks`, the blocks, `Plan.after_blocks`. -/
def planStep (s : StepState K (List T) (List T)) (x : StepInput T) :
    Except PyError (Record T × StepState K (List T) (List T)) := do
  let ((pruned, carries), s) ← plan.beforeBlocks (context cacheKey x) x.hidden s
  let (output, s) ← Plan.afterBlocks (context cacheKey x) (x.blocks pruned) carries s
  return (⟨x, output⟩, s)

/-- A run keeps its history; it ends where a step raises. -/
def logStep (s : StepState K (List T) (List T) × List (Record T)) (x : StepInput T) :
    Option (StepState K (List T) (List T) × List (Record T)) :=
  match planStep plan cacheKey s.1 x with
  | .ok (r, s') => some (s', r :: s.2)
  | .error _ => none

/-! ## What the technique is for -/

def isActive (x : StepInput T) : Bool :=
  p.enabled.atStep x.step x.stage && decide (p.keepRatio.atStep x.step x.stage < 1)

def span (x : StepInput T) : Nat × Nat :=
  segment p.prunableSegment x.hidden (context cacheKey x)

def lastSegment (earlier : List (Record T)) : Option (List T) :=
  (earlier.find? (fun r => p.isActive r.input)).map (fun r =>
    sliceTokens r.output (p.span cacheKey r.input).1 (p.span cacheKey r.input).2)

/-- The positions of the segment that the blocks see: all of them on a step that has to fill the
    buffer first. -/
def keptPositions (x : StepInput T) (prev : Option (List T)) : List Nat :=
  let (start, stop) := p.span cacheKey x
  if prev.isNone ∧ p.compensation = "prev" then List.range (stop - start)
  else keepIndices ops p.method (stop - start) (p.keepRatio.atStep x.step x.stage)
    (sliceTokens x.hidden start stop)

/-- The positions of the tokens that the blocks see, in the order in which they see them. -/
def seen (start stop numTokens : Nat) (kept : List Nat) : List Nat :=
  List.range start ++ kept.map (fun i => start + i) ++ List.range' stop (numTokens - stop)

def compensated [Zero T] (p : TokenPrune K T) (prev : Option (List T)) (d : Nat) : Option T :=
  match prev with
  | some prev => if p.compensation = "zero" then some 0 else prev[d]?
  | none => some 0

/-- What an active step returns. -/
structure Consistent [Zero T] (ops : TokenOps T F) (p : TokenPrune K T) (cacheKey : K)
    (prev : Option (List T)) (r : Record T) : Prop where
  tokens : r.output.length = r.input.hidden.length
  /-- The blocks see distinct positions in order. -/
  kept : (keptPositions ops p cacheKey r.input prev).Pairwise (· < ·) ∧
    ∀ i ∈ keptPositions ops p cacheKey r.input prev,
      i < (p.span cacheKey r.input).2 - (p.span cacheKey r.input).1
  /-- Each position that the blocks see holds the block output of its token. -/
  outputs : ∀ q pos : Nat, (seen (p.span cacheKey r.input).1 (p.span cacheKey r.input).2
      r.input.hidden.length (keptPositions ops p cacheKey r.input prev))[q]? = some pos →
    r.output[pos]? = (r.input.blocks
      ((seen (p.span cacheKey r.input).1 (p.span cacheKey r.input).2 r.input.hidden.length
        (keptPositions ops p cacheKey r.input prev)).filterMap (fun i => r.input.hidden[i]?)))[q]?
  /-- Each dropped position holds its previous value or zero. -/
  dropped : ∀ d, d < (p.span cacheKey r.input).2 - (p.span cacheKey r.input).1 →
    d ∉ keptPositions ops p cacheKey r.input prev →
    r.output[(p.span cacheKey r.input).1 + d]? = p.compensated prev d

end TokenPrune
