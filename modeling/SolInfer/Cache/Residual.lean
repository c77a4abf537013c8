import SolInfer.Lib.Dict
import SolInfer.Lib.Run

set_option autoImplicit false

/-! # Residual replay

What `cache/cosmos3_teacache.py` and `cache/ltx2_teacache.py` have in common. A coordinator keeps one
entry for each key. An eligible call is tested against the entry of its key: while the features have not
moved far since the last computed call, the residual of that call is added to the input instead of
running the layers. -/

namespace Residual

variable {κ H Φ F : Type}

/-! ## Entries -/

/-- The `reason` of a decision. -/
inductive Reason (F : Type) where
  | disabledOrBoundary
  | missingCache
  | periodicRecompute
  | continuousHitCap
  | featureShapeChanged
  | threshold (accumulated : F)
  | cacheHit
deriving DecidableEq, Repr

/-- `_Entry`: the features and the residual of the last computed call, the distance accumulated by the
    hits, and their number. -/
structure Entry (H Φ F : Type) where
  previousFeature : Option Φ
  residual : Option H
  accumulatedDistance : F
  lastComputeStep : Option Int
  continuousHits : Nat
deriving DecidableEq, Repr

/-- `_Entry()`. -/
def Entry.new [OfScientific F] : Entry H Φ F := ⟨none, none, 0.0, none, 0⟩

/-- The part of a configuration that decides between replaying and computing. -/
structure Policy (F : Type) where
  threshold : F
  maxContinuousHits : Int
  periodicRecomputeSteps : Int
  /-- Whether `store` sets `continuous_hits` back: that of Cosmos3 does, that of LTX-2 does not. -/
  storeResetsHits : Bool

/-- How features are compared: their shapes, and the rescaled relative distance to the previous ones. -/
structure FeatureOps (Φ F : Type) where
  sameShape : Φ → Φ → Bool
  distance : Φ → Φ → F

variable [Add F] [LE F] [DecidableLE F] [OfScientific F]

def Entry.isPeriodic (policy : Policy F) (step : Int) (entry : Entry H Φ F) : Bool :=
  match entry.lastComputeStep with
  | some last =>
    decide (0 < policy.periodicRecomputeSteps) &&
      decide (policy.periodicRecomputeSteps ≤ step - last)
  | none => false

def Entry.atCap (policy : Policy F) (entry : Entry H Φ F) : Bool :=
  decide (0 ≤ policy.maxContinuousHits) && decide (policy.maxContinuousHits ≤ entry.continuousHits)

/-- What the tests of an eligible call give: the reason, and on a hit the residual to replay. -/
structure Verdict (H F : Type) where
  reason : Reason F
  replayed : Option H := none
  /-- The local `accumulated`, where the tests get as far as comparing it with the threshold. -/
  accumulated : Option F := none
deriving DecidableEq, Repr

/-- The tests that `lookup` makes on the entry of an eligible call, in their order, and what each leaves
    in the entry. -/
def Entry.lookup (policy : Policy F) (ops : FeatureOps Φ F) (step : Int) (feature : Φ)
    (entry : Entry H Φ F) : Verdict H F × Entry H Φ F :=
  match entry.residual, entry.previousFeature with
  | some residual, some previous =>
    if entry.isPeriodic policy step then
      ({ reason := .periodicRecompute }, { entry with continuousHits := 0 })
    else if entry.atCap policy then
      ({ reason := .continuousHitCap }, { entry with continuousHits := 0 })
    else if ¬ ops.sameShape previous feature then
      ({ reason := .featureShapeChanged }, { entry with continuousHits := 0 })
    else
      let accumulated := entry.accumulatedDistance + ops.distance feature previous
      if policy.threshold ≤ accumulated then
        ({ reason := .threshold accumulated, accumulated := some accumulated },
          { entry with accumulatedDistance := 0.0, continuousHits := 0 })
      else
        ({ reason := .cacheHit, replayed := some residual, accumulated := some accumulated },
          { entry with
            accumulatedDistance := accumulated
            continuousHits := entry.continuousHits + 1 })
  | _, _ => ({ reason := .missingCache }, entry)

/-- What `store` leaves in the entry of a computed call. -/
def Entry.store (policy : Policy F) (step : Int) (feature : Φ) (residual : H)
    (entry : Entry H Φ F) : Entry H Φ F :=
  { entry with
    residual := some residual
    previousFeature := some feature
    lastComputeStep := some step
    continuousHits := if policy.storeResetsHits then 0 else entry.continuousHits }

/-! ## The coordinators

`lookup` and `store` of both coordinators, given the key, the features and the eligibility that each of
them determines in its own way. -/

/-- What `lookup` returns: on a hit also the hidden states to go on with. -/
structure Decision (κ H F : Type) where
  shouldSkip : Bool
  key : κ
  verdict : Verdict H F
  hidden : Option H

variable [DecidableEq κ]

variable (policy : Policy F) (ops : FeatureOps Φ F) (entries : Dict κ (Entry H Φ F)) (key : κ)

/-- `self._entries.setdefault(key, _Entry())`, as far as it is read. -/
def entryOf : Entry H Φ F :=
  (entries.get? key).getD .new

def lookup [Add H] (policy : Policy F) (ops : FeatureOps Φ F) (entries : Dict κ (Entry H Φ F))
    (key : κ) (eligible : Bool) (step : Int) (feature : Φ) (hidden : H) :
    Decision κ H F × Dict κ (Entry H Φ F) :=
  if ¬ eligible then (⟨false, key, { reason := .disabledOrBoundary }, none⟩, entries)
  else
    let (verdict, entry) := (entryOf entries key).lookup policy ops step feature
    (⟨verdict.replayed.isSome, key, verdict, verdict.replayed.map (hidden + ·)⟩, entries.set key entry)

def store (decision : Decision κ H F) (step : Int) (feature : Φ) (residual : H) : Dict κ (Entry H Φ F) :=
  if decision.shouldSkip then entries
  else
    entries.set decision.key ((entryOf entries decision.key).store policy step feature residual)

/-! ## Visits

One call of a model, as far as the entries are concerned: `lookup`, and `store` unless it was a hit. -/

/-- A call: its key, and what the entries get to see of it. -/
structure Visit (κ H Φ : Type) where
  key : κ
  step : Int
  eligible : Bool
  feature : Φ
  /-- The residual that the layers of this call would give. -/
  residual : H
  /-- The coordinator forgets every entry first. -/
  clears : Bool
deriving DecidableEq, Repr

structure Record (κ H Φ F : Type) where
  visit : Visit κ H Φ
  verdict : Verdict H F
deriving DecidableEq, Repr

def Record.isHit (r : Record κ H Φ F) : Bool := r.verdict.replayed.isSome

/-- A call of a model with its hidden states before and after the layers. -/
structure Answer (κ H Φ F : Type) where
  record : Record κ H Φ F
  input : H
  output : H
deriving DecidableEq, Repr

def found (v : Visit κ H Φ) : Dict κ (Entry H Φ F) :=
  if v.clears then .empty else entries

/-- The verdict of `lookup`, and the entry it leaves. -/
def tested (v : Visit κ H Φ) (entry : Entry H Φ F) : Verdict H F × Entry H Φ F :=
  if v.eligible then entry.lookup policy ops v.step v.feature
  else ({ reason := .disabledOrBoundary }, entry)

/-- `store`, unless the call was a hit. -/
def settled (v : Visit κ H Φ) (result : Verdict H F × Entry H Φ F) : Entry H Φ F :=
  match result.1.replayed with
  | some _ => result.2
  | none => result.2.store policy v.step v.feature v.residual

def visit (v : Visit κ H Φ) : Record κ H Φ F × Dict κ (Entry H Φ F) :=
  let result := tested policy ops v (entryOf (found entries v) v.key)
  (⟨v, result.1⟩, (found entries v).set v.key (settled policy v result))

/-- A forward pass around a visit: `lookup`, and on anything but a hit the layers, which turn `hidden`
    into `computed`, and `store`. -/
def forwardPass [Add H] (policy : Policy F) (ops : FeatureOps Φ F) (entries : Dict κ (Entry H Φ F))
    (v : Visit κ H Φ) (hidden computed : H) : Answer κ H Φ F × Dict κ (Entry H Φ F) :=
  let (decision, entries) :=
    lookup policy ops (found entries v) v.key v.eligible v.step v.feature hidden
  match decision.hidden with
  | some output => (⟨⟨v, decision.verdict⟩, hidden, output⟩, entries)
  | none =>
    (⟨⟨v, decision.verdict⟩, hidden, computed⟩, store policy entries decision v.step v.feature v.residual)

/-! ## What the entries are for -/

/-- The calls since the coordinator last forgot its entries, the newest first. -/
def sinceClear : List (Record κ H Φ F) → List (Record κ H Φ F)
  | [] => []
  | r :: earlier => if r.visit.clears then [r] else r :: sinceClear earlier

def ofKey (history : List (Record κ H Φ F)) : List (Record κ H Φ F) :=
  history.filter fun r => r.visit.key = key

def lastComputed (history : List (Record κ H Φ F)) : Option (Record κ H Φ F) :=
  (ofKey key history).find? fun r => !r.isHit

/-- The hits on a key since its last computed call, the newest first. -/
def hitsSince (history : List (Record κ H Φ F)) : List (Record κ H Φ F) :=
  (ofKey key history).takeWhile Record.isHit

/-- The sum of the distances of the hits from the features of the last computed call, added up in the
    order of the calls. -/
def distanceSince (computed : Record κ H Φ F) (hits : List (Record κ H Φ F)) : F :=
  hits.foldr (fun r total => total + ops.distance r.visit.feature computed.visit.feature) 0.0

/-- What a hit must keep: it falls into the window, it replays the residual of the last computed call on
    its key, it does not lengthen the streak beyond the limit, and the distance compared with the
    threshold is the one accumulated since that call. -/
structure Measured (policy : Policy F) (ops : FeatureOps Φ F) (r : Record κ H Φ F)
    (earlier : List (Record κ H Φ F)) (computed : Record κ H Φ F) : Prop where
  eligible : r.visit.eligible = true
  replayed : r.verdict.replayed = some computed.visit.residual
  streak : 0 ≤ policy.maxContinuousHits →
    ((hitsSince r.visit.key earlier).length : Int) < policy.maxContinuousHits
  accumulated : r.verdict.accumulated =
    some (distanceSince ops computed (hitsSince r.visit.key earlier) +
      ops.distance r.visit.feature computed.visit.feature)
  below : ¬ policy.threshold ≤ distanceSince ops computed (hitsSince r.visit.key earlier) +
    ops.distance r.visit.feature computed.visit.feature

/-- What the answer to a call promises: a hit adds the residual of the last computed call on its key to
    the input, and is measured against that call. -/
def Faithful [Add H] (policy : Policy F) (ops : FeatureOps Φ F) (r : Answer κ H Φ F)
    (earlier : List (Answer κ H Φ F)) : Prop :=
  r.record.isHit = true →
    ∃ computed, lastComputed r.record.visit.key (earlier.map Answer.record) = some computed ∧
      Measured policy ops r.record (earlier.map Answer.record) computed ∧
      r.output = r.input + computed.visit.residual

/-- Where a computed call leaves a distance behind that no longer counts: an entry that holds one is
    computed again for another reason than the threshold. -/
def Forgets (v : Visit κ H Φ) : Prop :=
  let entry := entryOf (found entries v) v.key
  entry.accumulatedDistance ≠ 0.0 ∧
    (v.eligible = false ∨ entry.isPeriodic policy v.step = true ∨ entry.atCap policy = true ∨
      ∃ previous, entry.previousFeature = some previous ∧ ops.sameShape previous v.feature = false)

end Residual
