import SolInfer.Lib.Run

set_option autoImplicit false

/-! # EasyCache of the SANA video transformer

`models/dits/sana_video.py`: on some calls the block stack is skipped and the residual of the last
computed call is added to the input instead. Where a generation starts, and which of the calls of
classifier-free guidance is running, is inferred from the timestep of the call before. Tensors are kept
abstract; numbers and timesteps are exact. -/

namespace SanaEasyCache

variable {T F : Type}

/-! ## The controller -/

/-- The settings `_ec_thresh`, `_ec_warmup` and `_ec_sub`. -/
structure Config (F : Type) where
  thresh : F
  warmup : Int
  sub : Int

/-- What is taken from torch: `x[:, ::sub]`, the mean of the absolute values and of the absolute
    differences. -/
structure TensorOps (T F : Type) where
  subsample : Int → T → T
  meanAbs : T → F
  meanAbsDiff : T → T → F

/-- The call of a timestep that the model takes itself to be in: `0` the first, `1` the second. -/
inductive Branch where
  | zero
  | one
deriving DecidableEq, Repr

/-- What a call can change. The counter of a branch that is not in `_tc_step` reads as 0. -/
structure State (T F : Type) where
  reuseResidual : Option T
  tcStep : Branch → Nat
  tcPrevT : Option F
  cachePrevT : Option F
  ecXPrev : Option T
  ecOutPrev : Option T
  ecOutPrevNorm : Option F
  ecRate : Option F
  ecCumulative : F
  ecRun : Bool

/-- `_cache_decide` returns `run_blocks` and `branch`; `approx` is the estimate it has added to the
    accumulator, if it came so far. -/
structure Decision (F : Type) where
  runBlocks : Bool
  branch : Branch
  approx : Option F
deriving DecidableEq, Repr

variable [Field F] [LinearOrder F] [Add T] [Sub T]

/-- `__init__`. -/
def State.new : State T F :=
  { reuseResidual := none, tcStep := fun _ => 0, tcPrevT := none, cachePrevT := none
    ecXPrev := none, ecOutPrev := none, ecOutPrevNorm := none, ecRate := none
    ecCumulative := 0, ecRun := true }

variable (ops : TensorOps T F) (c : Config F) (s : State T F)

/-- The test of `_tc_reset_if_new_gen`: there was no call yet, or the timestep jumps back up. -/
def newGen (t : F) : Bool :=
  match s.tcPrevT with
  | none => true
  | some prev => decide (prev + 1e-4 < t)

/-- `_tc_reset_if_new_gen`. -/
def resetIfNewGen (t : F) : State T F :=
  let s := if newGen s t then State.new else s
  { s with tcPrevT := some t }

/-- The `approx` of `_ec_decide`, or `none` where it returns before. -/
def ecApprox (step : Nat) (x : T) : Option F :=
  if (step : Int) < c.warmup then none
  else
    match s.ecXPrev, s.ecRate, s.ecOutPrevNorm with
    | some xPrev, some rate, some norm =>
      let cur := ops.subsample c.sub x
      some (rate * ops.meanAbsDiff cur xPrev / max norm 1e-6)
    | _, _, _ => none

/-- `_ec_decide`, with the estimate. -/
def ecDecide (step : Nat) (x : T) : Bool × Option F × State T F :=
  match ecApprox ops c s step x with
  | none => (true, none, s)
  | some approx =>
    let cumulative := s.ecCumulative + approx
    (decide (c.thresh ≤ cumulative), some approx, { s with ecCumulative := cumulative })

/-- The rate that `_ec_update` leaves: measured against the previous tensors, if there are any and the
    input has changed. -/
def ecMeasure (curX curO : T) : Option F :=
  match s.ecXPrev, s.ecOutPrev with
  | some xPrev, some outPrev =>
    let inc := ops.meanAbsDiff curX xPrev
    let outc := ops.meanAbsDiff curO outPrev
    if 1e-12 < inc then some (outc / inc) else s.ecRate
  | _, _ => s.ecRate

def ecUpdate (x out : T) : State T F :=
  let curX := ops.subsample c.sub x
  let curO := ops.subsample c.sub out
  { s with
    ecRate := ecMeasure ops s curX curO
    ecXPrev := some curX
    ecOutPrev := some curO
    ecOutPrevNorm := some (ops.meanAbs out)
    ecCumulative := 0 }

/-- The `branch` of `_cache_decide`. -/
def branchOf (t : F) : Branch :=
  match s.cachePrevT with
  | none => .zero
  | some prev => if |t - prev| < 1e-4 then .one else .zero

def cacheDecide (t : F) (x : T) : Decision F × State T F :=
  let s := resetIfNewGen s t
  let branch := branchOf s t
  let step := s.tcStep branch
  let s := { s with cachePrevT := some t, tcStep := Function.update s.tcStep branch (step + 1) }
  match branch with
  | .zero =>
    let (run, approx, s) := ecDecide ops c s step x
    (⟨run, branch, approx⟩, { s with ecRun := run })
  | .one => (⟨s.ecRun, branch, none⟩, s)

def cacheAfterCompute (branch : Branch) (before out : T) : State T F :=
  let s := if branch = .zero then ecUpdate ops c s before out else s
  { s with reuseResidual := some (out - before) }

/-- `_cache_reuse`; without a residual the addition raises. -/
def cacheReuse (hidden : T) : Option T :=
  s.reuseResidual.map (hidden + ·)

/-! ## Calls of the model -/

/-- A call of `forward`: the generation it is made for, its timestep, the hidden states in front of the
    blocks, and the block stack with the other inputs of the call. The model does not see the
    generation. -/
structure Call (T F : Type) where
  generation : Nat
  t : F
  hidden : T
  runBlocks : T → T

/-- What happened on a call. The output is `none` when the call raises. -/
structure Record (T F : Type) where
  generation : Nat
  t : F
  hidden : T
  decision : Decision F
  output : Option T
deriving DecidableEq, Repr

def Call.record (call : Call T F) (decision : Decision F) (output : Option T) : Record T F :=
  ⟨call.generation, call.t, call.hidden, decision, output⟩

/-- The part of `forward` around the blocks. -/
def forward (call : Call T F) : Record T F × State T F :=
  if 0 < c.thresh then
    let (decision, s) := cacheDecide ops c s call.t call.hidden
    if decision.runBlocks then
      let out := call.runBlocks call.hidden
      (call.record decision (some out), cacheAfterCompute ops c s decision.branch call.hidden out)
    else (call.record decision (cacheReuse s call.hidden), s)
  else
    -- the cache is off: every call is computed and nothing is kept
    (call.record ⟨true, .zero, none⟩ (some (call.runBlocks call.hidden)), s)

/-- The calls of a sequence of generations that all start at the timestep `t₀`: a generation stays at its
    timestep or goes down by more than the tolerance, and may be followed by the next one at any time. -/
def Admitted (t₀ : F) (s : State T F × List (Record T F)) (call : Call T F) : Prop :=
  match s.2 with
  | [] => call.t = t₀
  | last :: _ =>
    (call.generation = last.generation ∧ (call.t = last.t ∨ call.t + 1e-4 < last.t)) ∨
      (call.generation = last.generation + 1 ∧ call.t = t₀)

instance (t₀ : F) (s : State T F × List (Record T F)) (call : Call T F) :
    Decidable (Admitted t₀ s call) := by
  unfold Admitted
  split <;> infer_instance

/-! ## What a skipped call relies on -/

def ofGeneration (g : Nat) (earlier : List (Record T F)) : List (Record T F) :=
  earlier.takeWhile fun q => q.generation = g

def lastComputed (calls : List (Record T F)) : Option (Record T F) :=
  calls.find? fun q => q.decision.runBlocks

/-- The last computed call that the controller took for the first of its timestep. -/
def lastUpdate (calls : List (Record T F)) : Option (Record T F) :=
  calls.find? fun q => q.decision.runBlocks && decide (q.decision.branch = .zero)

/-- The sum of the estimates since the last computed call. -/
def accumulated (calls : List (Record T F)) : F :=
  ((calls.takeWhile (fun q => !q.decision.runBlocks)).filterMap (fun q => q.decision.approx)).sum

def computedSteps (calls : List (Record T F)) : Finset F :=
  ((calls.filter (fun q => q.decision.runBlocks)).map (fun q => q.t)).toFinset

/-- A rate is measured between two computed calls of the history. -/
def Measured (rate : F) (history : List (Record T F)) : Prop :=
  ∃ p ∈ history, ∃ q ∈ history, ∃ outP outQ, p.output = some outP ∧ q.output = some outQ ∧
    p.decision.runBlocks ∧ q.decision.runBlocks ∧
    rate = ops.meanAbsDiff (ops.subsample c.sub outQ) (ops.subsample c.sub outP) /
      ops.meanAbsDiff (ops.subsample c.sub q.hidden) (ops.subsample c.sub p.hidden)

/-- An estimate is a measured rate times how far the input has moved since the last computed step of the
    generation, relative to the output of that step. -/
def Estimated (r : Record T F) (earlier : List (Record T F)) (approx : F) : Prop :=
  ∃ k out rate, lastUpdate (ofGeneration r.generation earlier) = some k ∧ k.output = some out ∧
    Measured ops c rate earlier ∧
    approx = rate * ops.meanAbsDiff (ops.subsample c.sub r.hidden) (ops.subsample c.sub k.hidden) /
      max (ops.meanAbs out) 1e-6

/-- What a call that skips the blocks relies on: the residual is that of the last computed call of the
    same generation, the first call of the timestep has made an estimate, the estimates since the last
    computed call stay below the threshold, and enough timesteps of the generation were computed. -/
structure Skips (ops : TensorOps T F) (c : Config F) (r : Record T F) (earlier : List (Record T F)) :
    Prop where
  residual : ∃ k out, lastComputed (ofGeneration r.generation earlier) = some k ∧
    k.output = some out ∧ r.output = some (r.hidden + (out - k.hidden))
  estimated : (∀ q ∈ ofGeneration r.generation earlier, q.t ≠ r.t) →
    ∃ approx, r.decision.approx = some approx ∧ Estimated ops c r earlier approx
  below : accumulated (r :: ofGeneration r.generation earlier) < c.thresh
  warm : c.warmup ≤ (computedSteps (ofGeneration r.generation earlier)).card

/-- A call takes the decision of the earlier calls of its timestep, and may skip the blocks only as
    described. -/
structure Safe (ops : TensorOps T F) (c : Config F) (r : Record T F) (earlier : List (Record T F)) :
    Prop where
  same : ∀ q ∈ ofGeneration r.generation earlier, q.t = r.t → q.decision.runBlocks = r.decision.runBlocks
  skips : r.decision.runBlocks = false → Skips ops c r earlier


/-! ## Safety of EasyCache

A call of the model has one of three shapes: it resets the state, it repeats the timestep of the call
before, or it goes on to a lower timestep. The first call of a generation does not always have the first
shape: when the generation before it was given up at the common first timestep, it looks like one more
call of that timestep. -/

open List

variable {T F : Type}
variable {ops : TensorOps T F} {c : Config F} {s : State T F} {t₀ t p : F} {x out : T}
variable {r last : Record T F} {calls earlier rest : List (Record T F)} {call : Call T F}
variable {approx : Option F}

/-! ## The calls of a generation -/

@[simp]
theorem ofGeneration_nil (g : Nat) : ofGeneration g ([] : List (Record T F)) = [] := rfl

@[simp]
theorem ofGeneration_cons_self :
    ofGeneration r.generation (r :: earlier) = r :: ofGeneration r.generation earlier := by
  simp [ofGeneration]

theorem ofGeneration_cons_ne {g : Nat} (h : r.generation ≠ g) : ofGeneration g (r :: earlier) = [] := by
  simp [ofGeneration, h]

section

variable [LinearOrder F]

theorem computedSteps_cons_computed (h : r.decision.runBlocks = true) :
    computedSteps (r :: calls) = insert r.t (computedSteps calls) := by
  simp [computedSteps, h]

theorem computedSteps_cons_skipped (h : r.decision.runBlocks = false) :
    computedSteps (r :: calls) = computedSteps calls := by
  simp [computedSteps, h]

theorem mem_computedSteps {q : Record T F} (hq : q ∈ calls) (h : q.decision.runBlocks = true) :
    q.t ∈ computedSteps calls := by
  simp only [computedSteps, mem_toFinset, mem_map, mem_filter]
  exact ⟨q, ⟨hq, h⟩, rfl⟩

theorem computedSteps_subset : computedSteps calls ⊆ (calls.map (fun q => q.t)).toFinset := by
  intro t ht
  simp only [computedSteps, mem_toFinset, mem_map, mem_filter] at ht ⊢
  obtain ⟨q, ⟨hq, _⟩, hqt⟩ := ht
  exact ⟨q, hq, hqt⟩

end

variable [Field F]

theorem accumulated_cons_computed (h : r.decision.runBlocks = true) : accumulated (r :: calls) = 0 := by
  simp [accumulated, h]

theorem accumulated_cons_skipped (h : r.decision.runBlocks = false) :
    accumulated (r :: calls) = r.decision.approx.getD 0 + accumulated calls := by
  cases happrox : r.decision.approx <;> simp [accumulated, h, happrox]

theorem Measured.cons [Sub T] {rate : F} (h : Measured ops c rate earlier) :
    Measured ops c rate (r :: earlier) := by
  obtain ⟨p, hp, q, hq, h⟩ := h
  exact ⟨p, mem_cons_of_mem r hp, q, mem_cons_of_mem r hq, h⟩

/-! ## The three shapes of a call -/

/-- The state after a decision on the timestep `t`, before a first call estimates. -/
def advance (s : State T F) (t : F) (branch : Branch) : State T F :=
  { s with
    tcPrevT := some t
    cachePrevT := some t
    tcStep := Function.update s.tcStep branch (s.tcStep branch + 1) }

variable [LinearOrder F]

theorem cacheDecide_reset (h : newGen s t = true) :
    cacheDecide ops c s t x = (⟨true, .zero, none⟩, advance State.new t .zero) := by
  have happrox : ∀ step, ecApprox ops c (advance State.new t .zero) step x = none := by
    intro step
    simp [ecApprox, advance, State.new]
  simp [cacheDecide, resetIfNewGen, h, branchOf, State.new, ecDecide, advance] at happrox ⊢
  simp [happrox]

section

variable [IsStrictOrderedRing F]

private theorem tolerance_pos : (0 : F) < 1e-4 := by norm_num

theorem resetIfNewGen_of_le (hprev : s.tcPrevT = some p) (h : t ≤ p) :
    resetIfNewGen s t = { s with tcPrevT := some t } := by
  have hnot : ¬ p + 1e-4 < t := by linarith [tolerance_pos (F := F)]
  simp [resetIfNewGen, newGen, hprev, hnot]

theorem cacheDecide_repeat (hprev : s.tcPrevT = some t) (hcache : s.cachePrevT = some t) :
    cacheDecide ops c s t x = (⟨s.ecRun, .one, none⟩, advance s t .one) := by
  simp [cacheDecide, resetIfNewGen_of_le hprev le_rfl, branchOf, hcache, tolerance_pos, advance]

theorem cacheDecide_next (hprev : s.tcPrevT = some p) (hcache : s.cachePrevT = some p)
    (h : t + 1e-4 < p) :
    cacheDecide ops c s t x =
      let (run, approx, next) := ecDecide ops c (advance s t .zero) (s.tcStep .zero) x
      (⟨run, .zero, approx⟩, { next with ecRun := run }) := by
  have hle : t ≤ p := by linarith [tolerance_pos (F := F)]
  have hbranch : ¬ |t - p| < 1e-4 := by
    rw [abs_sub_comm, abs_of_nonneg (by linarith)]
    linarith
  simp [cacheDecide, resetIfNewGen_of_le hprev hle, branchOf, hcache, hbranch, advance]

end

/-! ## The invariant -/

variable [Sub T]

/-- The tensors kept by `_ec_update` are those of the call `k`. -/
def KeepsSignal (ops : TensorOps T F) (c : Config F) (s : State T F) (k : Record T F) : Prop :=
  ∃ out, k.output = some out ∧ k.decision.runBlocks = true ∧
    s.ecXPrev = some (ops.subsample c.sub k.hidden) ∧ s.ecOutPrev = some (ops.subsample c.sub out) ∧
    s.ecOutPrevNorm = some (ops.meanAbs out)

/-- The residual is that of the last computed call. -/
def KeepsResidual (s : State T F) (calls : List (Record T F)) : Prop :=
  ∃ k out, lastComputed calls = some k ∧ k.output = some out ∧ s.reuseResidual = some (out - k.hidden)

/-- What the state knows about the generation of the last call, whose calls so far are `calls`. At the
    common first timestep the tensors kept may still be those of a generation given up there; they are
    never used, since a rate is only measured at the second timestep. -/
structure Follows (ops : TensorOps T F) (c : Config F) (t₀ : F) (s : State T F) (last : Record T F)
    (rest calls : List (Record T F)) : Prop where
  isCalls : calls = ofGeneration last.generation (last :: rest)
  prevT : s.tcPrevT = some last.t
  cachePrevT : s.cachePrevT = some last.t
  lowest : ∀ q ∈ calls, last.t ≤ q.t
  position : last.t = t₀ ∨ last.t + 1e-4 < t₀
  run : ∀ q ∈ calls, q.t = last.t → q.decision.runBlocks = s.ecRun
  residual : KeepsResidual s calls
  steps : s.tcStep .zero = (calls.map (fun q => q.t)).toFinset.card
  warm : min c.warmup (s.tcStep .zero) ≤ (computedSteps calls).card
  sum : s.ecCumulative = accumulated calls
  skipping : s.ecRun = false → s.ecCumulative < c.thresh ∧ c.warmup ≤ (computedSteps calls).card
  first : last.t = t₀ → s.ecRun = true ∧ s.ecRate = none ∧ s.tcStep .zero = 1 ∧ s.ecCumulative = 0
  signal : ∃ k ∈ last :: rest, KeepsSignal ops c s k ∧ (last.t ≠ t₀ → lastUpdate calls = some k)
  rate : ∀ K, s.ecRate = some K → Measured ops c K (last :: rest)

/-- The invariant of a run. -/
def Keeps (ops : TensorOps T F) (c : Config F) (t₀ : F) (s : State T F) : List (Record T F) → Prop
  | [] => s.tcPrevT = none
  | last :: rest => ∃ calls, Follows ops c t₀ s last rest calls

theorem Follows.safe [Add T] (h : Follows ops c t₀ s r earlier (r :: calls))
    (hout : r.decision.runBlocks = false → r.output = cacheReuse s r.hidden)
    (hestimated : r.decision.runBlocks = false → (∀ q ∈ calls, q.t ≠ r.t) →
      ∃ approx, r.decision.approx = some approx ∧ Estimated ops c r earlier approx) :
    Safe ops c r earlier := by
  have hcalls : ofGeneration r.generation earlier = calls := by
    have hisCalls := h.isCalls
    rw [ofGeneration_cons_self] at hisCalls
    exact (List.cons.inj hisCalls).2.symm
  have hrun : r.decision.runBlocks = s.ecRun := h.run r mem_cons_self rfl
  refine ⟨?_, fun hskip => ?_⟩
  · rw [hcalls]
    intro q hq hqt
    rw [h.run q (mem_cons_of_mem r hq) hqt, hrun]
  · obtain ⟨hbelow, hwarm⟩ := h.skipping (hrun ▸ hskip)
    obtain ⟨k, out, hk, hkout, hresidual⟩ := h.residual
    refine ⟨⟨k, out, ?_, hkout, ?_⟩, ?_, ?_, ?_⟩
    · rw [hcalls]
      simpa [lastComputed, hskip] using hk
    · rw [hout hskip, cacheReuse, hresidual, Option.map_some]
    · rw [hcalls]
      exact hestimated hskip
    · rw [hcalls, ← h.sum]
      exact hbelow
    · rw [hcalls]
      rwa [computedSteps_cons_skipped hskip] at hwarm

theorem Follows.last_mem (h : Follows ops c t₀ s last rest calls) : last ∈ calls := by
  simp [h.isCalls]

theorem Follows.accumulated_of_run (h : Follows ops c t₀ s last rest calls) (hrun : s.ecRun = true) :
    s.ecCumulative = 0 := by
  have hlast : last.decision.runBlocks = true := by rw [h.run last h.last_mem rfl, hrun]
  rw [h.sum, h.isCalls, ofGeneration_cons_self, accumulated_cons_computed hlast]

/-! ## A call that repeats a timestep -/

section Repeat

variable (h : Follows ops c t₀ s last rest calls) (ht : r.t = last.t)
  (hr : r.decision = ⟨s.ecRun, .one, none⟩)
include h ht hr

omit ht in
theorem Follows.accumulated_repeat : accumulated (r :: calls) = accumulated calls := by
  cases hrun : s.ecRun with
  | true =>
    rw [accumulated_cons_computed (by rw [hr, hrun]), ← h.sum, h.accumulated_of_run hrun]
  | false =>
    rw [accumulated_cons_skipped (by rw [hr, hrun]), hr]
    exact zero_add _

theorem Follows.computedSteps_repeat : computedSteps (r :: calls) = computedSteps calls := by
  cases hrun : s.ecRun with
  | true =>
    have hlast : last.t ∈ computedSteps calls := by
      refine mem_computedSteps h.last_mem ?_
      rw [h.run last h.last_mem rfl, hrun]
    rw [computedSteps_cons_computed (by rw [hr, hrun]), ht, Finset.insert_eq_self.2 hlast]
  | false => rw [computedSteps_cons_skipped (by rw [hr, hrun])]

theorem Follows.repeat_step (hgen : r.generation = last.generation) {residual : Option T}
    (hresidual : KeepsResidual { advance s r.t .one with reuseResidual := residual } (r :: calls)) :
    Follows ops c t₀ { advance s r.t .one with reuseResidual := residual } r (last :: rest)
      (r :: calls) := by
  have hmem : last.t ∈ (calls.map (fun q => q.t)).toFinset := by
    simpa using ⟨last, h.last_mem, rfl⟩
  refine ⟨?_, rfl, rfl, ?_, ?_, ?_, hresidual, ?_, ?_, ?_, ?_, ?_, ?_, ?_⟩
  · rw [ofGeneration_cons_self, hgen, h.isCalls]
  · rintro q (_ | ⟨_, hq⟩)
    · exact le_rfl
    · rw [ht]; exact h.lowest q hq
  · rw [ht]; exact h.position
  · rintro q (_ | ⟨_, hq⟩) hqt
    · rw [hr]; rfl
    · exact h.run q hq (by rw [hqt, ht])
  · simp [advance, h.steps, ht, hmem]
  · rw [h.computedSteps_repeat ht hr]
    simpa [advance] using h.warm
  · rw [h.accumulated_repeat hr]
    exact h.sum
  · rw [h.computedSteps_repeat ht hr]
    exact h.skipping
  · intro hfirst
    simpa [advance] using h.first (by rw [← ht, hfirst])
  · obtain ⟨k, hk, hkeeps, hupdate⟩ := h.signal
    refine ⟨k, mem_cons_of_mem r hk, hkeeps, fun hne => ?_⟩
    rw [ht] at hne
    simpa [lastUpdate, hr] using hupdate hne
  · intro K hK
    exact (h.rate K hK).cons

end Repeat

/-! ## The first call of a generation -/

/-- The first call of a generation, when the one before it was given up at the first timestep: it is
    taken for one more call of that timestep, and is computed as those were. -/
theorem Follows.restart (h : Follows ops c t₀ s last rest calls) (hlast : last.t = t₀)
    (hgen : r.generation ≠ last.generation) (ht : r.t = t₀)
    (hr : r.decision = ⟨true, .one, none⟩) (hout : r.output = some out) :
    Follows ops c t₀ { advance s r.t .one with reuseResidual := some (out - r.hidden) } r
      (last :: rest) [r] := by
  have hran : r.decision.runBlocks = true := by rw [hr]
  obtain ⟨hrun, hrate, hstep, hsum⟩ := h.first hlast
  refine ⟨?_, rfl, rfl, ?_, .inl ht, ?_, ⟨r, out, ?_, hout, rfl⟩, ?_, ?_, ?_, ?_, ?_, ?_, ?_⟩
  · rw [ofGeneration_cons_self, ofGeneration_cons_ne (Ne.symm hgen)]
  · rintro q (_ | ⟨_, ⟨⟩⟩)
    exact le_rfl
  · rintro q (_ | ⟨_, ⟨⟩⟩) _
    rw [hran]; exact hrun.symm
  · simp [lastComputed, hran]
  · simp [advance, hstep]
  · rw [computedSteps_cons_computed hran]
    simp [advance, hstep, computedSteps]
  · rw [accumulated_cons_computed hran]
    exact hsum
  · intro hskip
    exact absurd (hrun.symm.trans hskip) (by simp)
  · intro _
    exact ⟨hrun, hrate, by simpa [advance] using hstep, hsum⟩
  · obtain ⟨k, hk, hkeeps, _⟩ := h.signal
    exact ⟨k, mem_cons_of_mem r hk, hkeeps, fun hne => absurd ht hne⟩
  · intro K hK
    exact (h.rate K hK).cons

theorem follows_reset (ht : r.t = t₀) (hcalls : [r] = ofGeneration r.generation (r :: earlier))
    (hr : r.decision = ⟨true, .zero, none⟩) (hout : r.output = some out) :
    Follows ops c t₀ (cacheAfterCompute ops c (advance State.new r.t .zero) .zero r.hidden out) r
      earlier [r] := by
  have hran : r.decision.runBlocks = true := by rw [hr]
  refine ⟨hcalls, rfl, rfl, ?_, .inl ht, ?_, ⟨r, out, ?_, hout, rfl⟩, ?_, ?_, ?_, ?_, ?_, ?_, ?_⟩
  · rintro q (_ | ⟨_, ⟨⟩⟩)
    exact le_rfl
  · rintro q (_ | ⟨_, ⟨⟩⟩) _
    rw [hran]; rfl
  · simp [lastComputed, hran]
  · simp [cacheAfterCompute, ecUpdate, advance, State.new]
  · rw [computedSteps_cons_computed hran]
    simp [cacheAfterCompute, ecUpdate, advance, State.new, computedSteps]
  · rw [accumulated_cons_computed hran]
    rfl
  · rintro ⟨⟩
  · intro _
    simp [cacheAfterCompute, ecUpdate, advance, State.new, ecMeasure]
  · exact ⟨r, mem_cons_self, ⟨out, hout, hran, rfl, rfl, rfl⟩, fun hne => absurd ht hne⟩
  · intro K hK
    simp [cacheAfterCompute, ecUpdate, advance, State.new, ecMeasure] at hK

/-! ## A call that goes on to a lower timestep -/

section Next

variable [IsStrictOrderedRing F] (h : Follows ops c t₀ s last rest calls) (ht : r.t + 1e-4 < last.t)
include h ht

theorem Follows.next_lt {q : Record T F} (hq : q ∈ calls) : r.t < q.t := by
  linarith [h.lowest q hq, tolerance_pos (F := F)]

theorem Follows.next_position : r.t + 1e-4 < t₀ := by
  rcases h.position with hpos | hpos
  · rwa [← hpos]
  · linarith [tolerance_pos (F := F)]

theorem Follows.next_steps : s.tcStep .zero + 1 = ((r :: calls).map (fun q => q.t)).toFinset.card := by
  have hnot : r.t ∉ (calls.map (fun q => q.t)).toFinset := by
    simp only [mem_toFinset, mem_map, not_exists, not_and]
    intro q hq heq
    exact absurd heq (ne_of_gt (h.next_lt ht hq))
  rw [map_cons, toFinset_cons, Finset.card_insert_of_notMem hnot, h.steps]

theorem Follows.next_computedSteps (hran : r.decision.runBlocks = true) :
    (computedSteps (r :: calls)).card = (computedSteps calls).card + 1 := by
  rw [computedSteps_cons_computed hran, Finset.card_insert_of_notMem]
  intro hmem
  obtain ⟨q, hq, heq⟩ := mem_map.1 (mem_toFinset.1 (computedSteps_subset hmem))
  exact absurd heq (ne_of_gt (h.next_lt ht hq))

theorem Follows.next_run (b : Bool) (hran : r.decision.runBlocks = b) :
    ∀ q ∈ r :: calls, q.t = r.t → q.decision.runBlocks = b := by
  rintro q (_ | ⟨_, hq⟩) hqt
  · exact hran
  · exact absurd hqt (ne_of_gt (h.next_lt ht hq))

theorem Follows.next_lowest : ∀ q ∈ r :: calls, r.t ≤ q.t := by
  rintro q (_ | ⟨_, hq⟩)
  · exact le_rfl
  · exact le_of_lt (h.next_lt ht hq)

theorem Follows.next_ne : r.t ≠ t₀ := by
  have hpos := h.next_position ht
  intro heq
  linarith [tolerance_pos (F := F)]

omit [IsStrictOrderedRing F] ht in
theorem Follows.next_rate (hran : r.decision.runBlocks = true) (hout : r.output = some out) {K : F}
    (hK : ecMeasure ops s (ops.subsample c.sub r.hidden) (ops.subsample c.sub out) = some K) :
    Measured ops c K (r :: last :: rest) := by
  obtain ⟨k, hk, ⟨outK, hkout, hkran, hx, ho, _⟩, _⟩ := h.signal
  rw [ecMeasure, hx, ho] at hK
  dsimp only at hK
  split at hK
  · cases hK
    exact ⟨k, mem_cons_of_mem r hk, r, mem_cons_self, outK, out, hkout, hout, hkran, hran, rfl⟩
  · exact (h.rate K hK).cons

theorem Follows.next_computed (hgen : r.generation = last.generation)
    (hr : r.decision = ⟨true, .zero, approx⟩) (hout : r.output = some out) (cumulative : F) :
    Follows ops c t₀
      (cacheAfterCompute ops c
        { advance s r.t .zero with ecCumulative := cumulative, ecRun := true } .zero r.hidden out)
      r (last :: rest) (r :: calls) := by
  have hran : r.decision.runBlocks = true := by rw [hr]
  refine ⟨?_, rfl, rfl, h.next_lowest ht, .inr (h.next_position ht), h.next_run ht _ hran,
    ⟨r, out, ?_, hout, rfl⟩, ?_, ?_, ?_, ?_, ?_, ?_, ?_⟩
  · rw [ofGeneration_cons_self, hgen, h.isCalls]
  · simp [lastComputed, hran]
  · rw [← h.next_steps ht]
    simp [cacheAfterCompute, ecUpdate, advance]
  · have hwarm := h.warm
    rw [h.next_computedSteps ht hran]
    simp only [cacheAfterCompute, if_true, ecUpdate, advance, Function.update_self]
    omega
  · rw [accumulated_cons_computed hran]
    rfl
  · rintro ⟨⟩
  · exact fun hfirst => absurd hfirst (h.next_ne ht)
  · refine ⟨r, mem_cons_self, ⟨out, hout, hran, rfl, rfl, rfl⟩, fun _ => ?_⟩
    simp [lastUpdate, hr]
  · intro K hK
    exact h.next_rate hran hout hK

section

variable {approx : F}
  (happrox : ecApprox ops c (advance s r.t .zero) (s.tcStep .zero) r.hidden = some approx)
  (hgen : r.generation = last.generation)
include happrox hgen

omit [IsStrictOrderedRing F] ht in
theorem Follows.approx_spec :
    last.t ≠ t₀ ∧ c.warmup ≤ s.tcStep .zero ∧ Estimated ops c r (last :: rest) approx := by
  obtain ⟨k, hk, ⟨out, hout, hran, hx, ho, hnorm⟩, hupdate⟩ := h.signal
  rw [ecApprox] at happrox
  split at happrox
  · cases happrox
  next hwarm =>
    cases hrate : s.ecRate with
    | none => simp [advance, hrate] at happrox
    | some K =>
      have hlast : last.t ≠ t₀ := by
        intro hfirst
        have hnone := (h.first hfirst).2.1
        rw [hrate] at hnone
        cases hnone
      have hcalls : ofGeneration r.generation (last :: rest) = calls := by rw [hgen, h.isCalls]
      refine ⟨hlast, not_lt.1 hwarm, k, out, K, ?_, hout, h.rate K hrate, ?_⟩
      · rw [hcalls, hupdate hlast]
      · simp only [advance, hx, hrate, hnorm, Option.some.injEq] at happrox
        exact happrox.symm

theorem Follows.next_skipped (hr : r.decision = ⟨false, .zero, some approx⟩)
    (hbelow : s.ecCumulative + approx < c.thresh) :
    Follows ops c t₀
      { advance s r.t .zero with ecCumulative := s.ecCumulative + approx, ecRun := false }
      r (last :: rest) (r :: calls) := by
  have hran : r.decision.runBlocks = false := by rw [hr]
  obtain ⟨hlast, hwarm, _⟩ := h.approx_spec happrox hgen
  have hcard : c.warmup ≤ (computedSteps calls).card := by
    have := h.warm
    omega
  refine ⟨?_, rfl, rfl, h.next_lowest ht, .inr (h.next_position ht), h.next_run ht _ hran,
    ?_, ?_, ?_, ?_, ?_, ?_, ?_, ?_⟩
  · rw [ofGeneration_cons_self, hgen, h.isCalls]
  · obtain ⟨k, out, hk, hout, hresidual⟩ := h.residual
    exact ⟨k, out, by simpa [lastComputed, hran] using hk, hout, hresidual⟩
  · rw [← h.next_steps ht]
    simp [advance]
  · rw [computedSteps_cons_skipped hran]
    omega
  · rw [accumulated_cons_skipped hran, hr, ← h.sum]
    exact add_comm _ _
  · intro _
    rw [computedSteps_cons_skipped hran]
    exact ⟨hbelow, hcard⟩
  · exact fun hfirst => absurd hfirst (h.next_ne ht)
  · obtain ⟨k, hk, hkeeps, hupdate⟩ := h.signal
    refine ⟨k, mem_cons_of_mem r hk, hkeeps, fun _ => ?_⟩
    simpa [lastUpdate, hran] using hupdate hlast
  · intro K hK
    exact (h.rate K hK).cons

end

end Next

/-! ## Steps and runs -/

variable [Add T]

theorem forward_computed (hon : 0 < c.thresh) {branch : Branch} {s' : State T F}
    (h : cacheDecide ops c s call.t call.hidden = (⟨true, branch, approx⟩, s')) :
    forward ops c s call =
      (call.record ⟨true, branch, approx⟩ (some (call.runBlocks call.hidden)),
        cacheAfterCompute ops c s' branch call.hidden (call.runBlocks call.hidden)) := by
  simp [forward, hon, h]

theorem forward_skipped (hon : 0 < c.thresh) {branch : Branch} {s' : State T F}
    (h : cacheDecide ops c s call.t call.hidden = (⟨false, branch, approx⟩, s')) :
    forward ops c s call =
      (call.record ⟨false, branch, approx⟩ (cacheReuse s' call.hidden), s') := by
  simp [forward, hon, h]

/-- What the proof of a step has to give. -/
def Advances (ops : TensorOps T F) (c : Config F) (t₀ : F) (earlier : List (Record T F))
    (next : Record T F × State T F) : Prop :=
  Safe ops c next.1 earlier ∧ Keeps ops c t₀ next.2 (next.1 :: earlier)

theorem Follows.advances_computed (h : Follows ops c t₀ s r earlier (r :: calls))
    (hran : r.decision.runBlocks = true) : Advances ops c t₀ earlier (r, s) := by
  refine ⟨h.safe ?_ ?_, _, h⟩
  · intro hskip
    rw [hran] at hskip
    cases hskip
  · intro hskip
    rw [hran] at hskip
    cases hskip

theorem forward_reset (hon : 0 < c.thresh) (ht : call.t = t₀) (hnew : newGen s call.t = true)
    (hgen : ∀ q ∈ earlier, earlier.head? = some q → q.generation ≠ call.generation) :
    Advances ops c t₀ earlier (forward ops c s call) := by
  rw [forward_computed hon (cacheDecide_reset hnew)]
  let r := call.record ⟨true, .zero, none⟩ (some (call.runBlocks call.hidden))
  refine Follows.advances_computed (follows_reset (r := r) ht ?_ rfl rfl) rfl
  cases earlier with
  | nil => simp
  | cons last rest =>
    have hne : last.generation ≠ r.generation := hgen last mem_cons_self rfl
    rw [ofGeneration_cons_self, ofGeneration_cons_ne hne]

theorem forward_off (hoff : ¬ 0 < c.thresh) : (forward ops c s call).1.decision.runBlocks = true := by
  simp [forward, hoff, Call.record]

theorem safe_of_all_computed (hr : r.decision.runBlocks = true)
    (h : ∀ q ∈ earlier, q.decision.runBlocks = true) : Safe ops c r earlier := by
  refine ⟨fun q hq _ => ?_, fun hskip => ?_⟩
  · rw [hr, h q (takeWhile_subset _ hq)]
  · rw [hr] at hskip
    cases hskip

/-- Every call so far has run the blocks, whatever the state. -/
def AllComputed (_ : State T F) (history : List (Record T F)) : Prop :=
  ∀ q ∈ history, q.decision.runBlocks = true

variable [IsStrictOrderedRing F]

section

variable (h : Follows ops c t₀ s last rest calls) (hon : 0 < c.thresh)
include h hon

/-- A later generation that starts right after a call at the first timestep. -/
theorem Follows.forward_restart (hlast : last.t = t₀) (hgen : call.generation ≠ last.generation)
    (ht : call.t = t₀) : Advances ops c t₀ (last :: rest) (forward ops c s call) := by
  have hdecide : cacheDecide ops c s call.t call.hidden = (⟨s.ecRun, .one, none⟩, advance s call.t .one) :=
    cacheDecide_repeat (by rw [h.prevT, hlast, ht]) (by rw [h.cachePrevT, hlast, ht])
  rw [(h.first hlast).1] at hdecide
  rw [forward_computed hon hdecide]
  let r := call.record ⟨true, .one, none⟩ (some (call.runBlocks call.hidden))
  exact Follows.advances_computed (h.restart (r := r) hlast hgen ht rfl rfl) rfl

theorem Follows.forward_repeat (hgen : call.generation = last.generation) (ht : call.t = last.t) :
    Advances ops c t₀ (last :: rest) (forward ops c s call) := by
  have hdecide : cacheDecide ops c s call.t call.hidden = (⟨s.ecRun, .one, none⟩, advance s call.t .one) :=
    cacheDecide_repeat (by rw [h.prevT, ht]) (by rw [h.cachePrevT, ht])
  cases hrun : s.ecRun with
  | true =>
    rw [hrun] at hdecide
    rw [forward_computed hon hdecide]
    let r := call.record ⟨true, .one, none⟩ (some (call.runBlocks call.hidden))
    have hr : r.decision = ⟨s.ecRun, .one, none⟩ := by rw [hrun]; rfl
    refine Follows.advances_computed (h.repeat_step ht hr hgen ?_) rfl
    exact ⟨r, call.runBlocks call.hidden, rfl, rfl, rfl⟩
  | false =>
    rw [hrun] at hdecide
    rw [forward_skipped hon hdecide]
    obtain ⟨k, out, hk, hout, hresidual⟩ := h.residual
    let r := call.record ⟨false, .one, none⟩ (cacheReuse (advance s call.t .one) call.hidden)
    have hr : r.decision = ⟨s.ecRun, .one, none⟩ := by rw [hrun]; rfl
    have hnext : Follows ops c t₀ (advance s r.t .one) r (last :: rest) (r :: calls) :=
      h.repeat_step ht hr hgen ⟨k, out, hk, hout, hresidual⟩
    refine ⟨hnext.safe (fun _ => rfl) ?_, _, hnext⟩
    -- the timestep has had its first call
    intro _ hfresh
    exact absurd ht.symm (hfresh last h.last_mem)

theorem Follows.forward_next (hgen : call.generation = last.generation)
    (ht : call.t + 1e-4 < last.t) : Advances ops c t₀ (last :: rest) (forward ops c s call) := by
  have hdecide : cacheDecide ops c s call.t call.hidden = _ :=
    cacheDecide_next h.prevT h.cachePrevT ht
  cases happrox : ecApprox ops c (advance s call.t .zero) (s.tcStep .zero) call.hidden with
  | none =>
    simp only [ecDecide, happrox] at hdecide
    rw [forward_computed hon hdecide]
    let r := call.record ⟨true, .zero, none⟩ (some (call.runBlocks call.hidden))
    exact Follows.advances_computed (h.next_computed (r := r) ht hgen rfl rfl s.ecCumulative) rfl
  | some approx =>
    simp only [ecDecide, happrox] at hdecide
    by_cases hreached : c.thresh ≤ s.ecCumulative + approx
    · have hrun : decide (c.thresh ≤ (advance s call.t .zero).ecCumulative + approx) = true :=
        decide_eq_true hreached
      rw [hrun] at hdecide
      rw [forward_computed hon hdecide]
      let r := call.record ⟨true, .zero, some approx⟩ (some (call.runBlocks call.hidden))
      exact Follows.advances_computed (h.next_computed (r := r) ht hgen rfl rfl _) rfl
    · have hrun : decide (c.thresh ≤ (advance s call.t .zero).ecCumulative + approx) = false :=
        decide_eq_false hreached
      rw [hrun] at hdecide
      rw [forward_skipped hon hdecide]
      let r := call.record ⟨false, .zero, some approx⟩
        (cacheReuse (advance s call.t .zero) call.hidden)
      have hnext := h.next_skipped (r := r) ht happrox hgen rfl (not_le.1 hreached)
      refine ⟨hnext.safe (fun _ => rfl) ?_, _, hnext⟩
      intro _ _
      exact ⟨approx, rfl, (h.approx_spec (r := r) happrox hgen).2.2⟩

end

/-- **Step**: a call that fits a sequence of generations is safe and keeps the invariant. -/
theorem forward_advances (hon : 0 < c.thresh) (hkeeps : Keeps ops c t₀ s earlier)
    (hadmitted : Admitted t₀ (s, earlier) call) :
    Advances ops c t₀ earlier (forward ops c s call) := by
  cases earlier with
  | nil =>
    have hnew : newGen s call.t = true := by
      rw [newGen, show s.tcPrevT = none from hkeeps]
    exact forward_reset hon hadmitted hnew (by simp)
  | cons last rest =>
    obtain ⟨calls, h⟩ := hkeeps
    rcases hadmitted with ⟨hgen, ht | ht⟩ | ⟨hgen, ht⟩
    · exact h.forward_repeat hon hgen ht
    · exact h.forward_next hon hgen ht
    · have hne : call.generation ≠ last.generation := by omega
      rcases h.position with hpos | hpos
      · exact h.forward_restart hon hpos hne ht
      · refine forward_reset hon ht ?_ ?_
        · rw [newGen, h.prevT, ht]
          exact decide_eq_true hpos
        · rintro q _ ⟨⟩
          exact hne.symm

/-- **EasyCache is safe in every sequence of generations** that start at one timestep, wherever they are
    given up: the calls of a timestep take one decision, and a call that skips the blocks has a residual
    computed in its own generation, an accumulated estimate below the threshold, and at least `warmup`
    computed timesteps before it. -/
theorem forward_safe (ops : TensorOps T F) (c : Config F) (t₀ : F) {s : State T F × List (Record T F)}
    (h : Run.Reaches (History.log (forward ops c)) (Admitted t₀) (State.new, []) s) :
    History.Always (Safe ops c) s.2 := by
  by_cases hon : 0 < c.thresh
  · refine (History.always_of_reaches (R := Keeps ops c t₀) h rfl ?_).2
    intro s earlier call hkeeps hadmitted
    exact forward_advances hon hkeeps hadmitted
  · refine (History.always_of_reaches (R := AllComputed) h (by simp [AllComputed]) ?_).2
    intro s earlier call hall _
    have hran : (forward ops c s call).1.decision.runBlocks = true := forward_off hon
    refine ⟨safe_of_all_computed hran hall, ?_⟩
    rintro q (_ | ⟨_, hq⟩)
    · exact hran
    · exact hall q hq

def numberOps : TensorOps ℚ ℚ where
  subsample := fun _ x => x
  meanAbs := fun x => |x|
  meanAbsDiff := fun x y => |x - y|

def halfThreshold : Config ℚ := ⟨1 / 2, 2, 8⟩

def numberCall (generation : Nat) (t x : ℚ) : Call ℚ ℚ := ⟨generation, t, x, (· + 1)⟩

/-- The first generation is given up after its first call, and the second one skips its third timestep:
    the residual 1 is that of its second timestep. -/
theorem forward_safe_restart :
    ∃ s, Run.Reaches (History.log (forward numberOps halfThreshold)) (Admitted 3) (State.new, []) s ∧
      s.2.map (fun r => (r.generation, r.decision.runBlocks, r.output)) =
        [(1, false, some 3), (1, true, some 3), (1, true, some 2), (0, true, some 2)] ∧
      History.Always (Safe numberOps halfThreshold) s.2 := by
  obtain ⟨s, hexec, hhistory⟩ : ∃ s, Run.exec (fun s call => if Admitted 3 s call then
        History.log (forward numberOps halfThreshold) s call else none) (State.new, [])
      [numberCall 0 3 1, numberCall 1 3 1, numberCall 1 2 2, numberCall 1 1 2] = some s ∧
      s.2.map (fun r => (r.generation, r.decision.runBlocks, r.output)) =
        [(1, false, some 3), (1, true, some 3), (1, true, some 2), (0, true, some 2)] :=
    Option.map_eq_some_iff.1 (by decide +kernel)
  have hreaches := Run.reaches_of_exec_guarded hexec
  exact ⟨s, hreaches, hhistory, forward_safe numberOps halfThreshold 3 hreaches⟩

end SanaEasyCache
