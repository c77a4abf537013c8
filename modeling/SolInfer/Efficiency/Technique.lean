import SolInfer.Lib.Dict
import SolInfer.Lib.Python

set_option autoImplicit false

/-! # Schedules

`efficiency/schedule.py`: a value for every denoising step and stage, and the constructors for it. -/

/-- A value resolved per step and stage. -/
structure Schedule (T : Type) where
  fn : Int → String → T

namespace Schedule

variable {T : Type}

/-- `at(step, stage="")`. -/
def atStep (s : Schedule T) (step : Int) (stage : String := "") : T := s.fn step stage

/-- `truthy_steps`: the steps below the horizon with a true value, in the unnamed stage. -/
def truthySteps (s : Schedule Bool) (horizon : Nat := 64) : Finset Nat :=
  (Finset.range horizon).filter fun step => s.atStep step = true

def const (value : T) : Schedule T := ⟨fun _ _ => value⟩

/-- `at_steps`, on a parsed list of steps. -/
def atSteps (steps : List Int) (value default : T) : Schedule T :=
  ⟨fun step _ => if step ∈ steps then value else default⟩

def before (n : Int) (value thereafter : T) : Schedule T :=
  ⟨fun step _ => if step < n then value else thereafter⟩

def predicate (fn : Int → String → Bool) (value default : T) : Schedule T :=
  ⟨fun step stage => if fn step stage then value else default⟩

/-- `by_stage`; a bare value, in the mapping or as the default, is a constant schedule. -/
def byStage (mapping : Dict String (Schedule T)) (default : Schedule T) : Schedule T :=
  ⟨fun step stage => ((mapping.get? stage).getD default).atStep step stage⟩

end Schedule

/-! ## Techniques, transforms and model specs

`efficiency/technique.py`, `transform.py` and `spec.py`: what an item of a plan declares (phase,
effects, needed capabilities, schedule) and the step hook of a technique. -/

inductive Phase where
  | wrapAttention | preBlocks | inBlocks | postBlocks | onStep
deriving DecidableEq, Repr

def Phase.value : Phase → Nat
  | wrapAttention => 10
  | preBlocks => 20
  | inBlocks => 30
  | postBlocks => 40
  | onStep => 50

inductive Seam where
  | attention | attentionBackend | tokenSet | hiddenStates | kernelFusion | residualCache
  | stepOutput | ffnPrecision
deriving DecidableEq, Repr

/-- `EXCLUSIVE_SEAMS`: the seams with at most one active writer in a plan. -/
def exclusiveSeams : Finset Seam := {.attentionBackend, .tokenSet, .stepOutput, .ffnPrecision}

inductive Capability where
  | blocks | prunableTokens | residualTuple | swappableAttention
deriving DecidableEq, Repr

/-- `ModelSpec`: what a model provides. -/
structure ModelSpec where
  name : String
  capabilities : Finset Capability

def ModelSpec.missing (spec : ModelSpec) (required : Finset Capability) : Finset Capability :=
  required \ spec.capabilities

/-- The context of a step hook; the scratch dictionary is threaded as state. -/
structure TechniqueContext (K : Type) where
  step : Int
  stage : String
  cacheKey : K

/-- What a hook can change: the entries of the scratch dictionary, and the number of times the step
    has been computed. Each technique has its own type of entries; that of the step cache is the
    default. -/
structure StepState (K V : Type) (E : Type := V × Option V) where
  scratch : Dict (String × K) E
  calls : Nat

abbrev StepM (K V : Type) (E : Type := V × Option V) := StateM (StepState K V E) V

/-- A hook around the blocks; torch raises on indices out of range. -/
abbrev HookM (K V E : Type) := StateT (StepState K V E) (Except PyError)

/-- `Technique`; `gate` is what a subclass adds to `is_active` (the keep ratio of `TokenPrune`), and
    `C` is what `before_blocks` hands to `after_blocks`. -/
structure Technique (K V : Type) (E : Type := V × Option V) (C : Type := Unit) where
  name : String
  phase : Phase := .preBlocks
  reads : Finset Seam := ∅
  writes : Finset Seam := ∅
  requiredCapabilities : Finset Capability := ∅
  enabled : Schedule Bool
  gate : Schedule Bool := Schedule.const true
  beforeBlocks : TechniqueContext K → V → HookM K V E (V × Option C) :=
    fun _ hidden => pure (hidden, none)
  afterBlocks : TechniqueContext K → V → Option C → HookM K V E V :=
    fun _ hidden _ => pure hidden
  onStep : TechniqueContext K → StepM K V E → StepM K V E := fun _ runStep => runStep

def Technique.isActive {K V E C : Type} (t : Technique K V E C) (step : Int) (stage : String) : Bool :=
  t.enabled.atStep step stage && t.gate.atStep step stage

inductive TransformPhase where
  | load | build
deriving DecidableEq, Repr

def TransformPhase.value : TransformPhase → Nat
  | load => 10
  | build => 20

structure ModelTransform where
  name : String
  phase : TransformPhase := .build
  writes : Finset Seam := ∅
  requiredCapabilities : Finset Capability := ∅
