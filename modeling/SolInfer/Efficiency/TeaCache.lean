import SolInfer.Efficiency.Compose
import SolInfer.Lib.Run

set_option autoImplicit false

/-! # TeaCache

`efficiency/techniques/teacache.py`: the output of a step is replaced by the last one while the
accumulated distance of a signal of the model stays below a threshold. Nothing here depends on the laws
of the floats, so `F` is any type with their operations; the signals are tensors of which the code takes
two means. -/

variable {K S V F : Type} [DecidableEq K]

/-- The means the code takes of signals: `(a - b).abs().mean()` and `a.abs().mean()`. -/
structure SignalOps (S F : Type) where
  meanAbsDiff : S → S → F
  meanAbs : S → F

/-- The parameters of `TeaCache`. -/
structure TeaCache (F : Type) where
  threshold : F
  startStep : Int
  coefficients : List F
  maxContinuousHits : Int
  periodicRecompute : Int
  enabled : Schedule Bool

namespace TeaCache

/-- `TeaCache.__init__`. -/
def new [OfScientific F] (threshold : F := 0.04) (startStep : Int := 6)
    (coefficients : Option (List F) := none) (maxContinuousHits : Int := 1)
    (periodicRecompute : Int := 0) (enabled : Schedule Bool := Schedule.const true) : TeaCache F where
  threshold := threshold
  startStep := startStep
  coefficients := match coefficients with
    | some (c :: rest) => c :: rest
    | _ => [1.0, 0.0]
  maxContinuousHits := maxContinuousHits
  periodicRecompute := periodicRecompute
  enabled := enabled

/-- The dictionary that `on_step` keeps under its key. -/
structure State (S V F : Type) where
  prev : Option S
  acc : F
  hits : Int
  out : Option V
  since : Int

/-- What the scratch dictionary holds: the state of the cache, or a signal of the model. -/
abbrev Entry (S V F : Type) := State S V F ⊕ S

def key (cacheKey : K) : String × K := ("teacache", cacheKey)

def signalKey (cacheKey : K) : String × K := ("teacache_signal", cacheKey)

section Floats

variable [Add F] [Mul F] [Div F] [LT F] [DecidableLT F] [OfScientific F]

variable (ops : SignalOps S F) (p : TeaCache F)

/-- `_rescale`: the polynomial by Horner's rule. -/
def rescale (x : F) : F := p.coefficients.foldl (fun y c => y * x + c) 0.0

/-- The relative distance of a signal from the one before it; the denominator is
    `max(mean, 1e-8)`. -/
def relDistance (modulated prev : S) : F :=
  ops.meanAbsDiff modulated prev /
    (if ops.meanAbs prev < 1e-8 then 1e-8 else ops.meanAbs prev)

def State.empty : State S V F := ⟨none, 0.0, 0, none, 0⟩

def compared (ctx : TechniqueContext K) (st : State S V F) (modulated : Option S) : Option (S × S) :=
  if p.enabled.atStep ctx.step ctx.stage = false ∨ ctx.step < p.startStep ∨
      (p.periodicRecompute ≠ 0 ∧ p.periodicRecompute ≤ st.since) then none
  else
    match modulated, st.prev with
    | some modulated, some prev => some (modulated, prev)
    | _, _ => none

def measure (st : State S V F) :
    Option (S × S) → F × Bool
  | some (modulated, prev) =>
    let acc := st.acc + p.rescale (relDistance ops modulated prev)
    (acc, decide (acc < p.threshold ∧ st.hits < p.maxContinuousHits))
  | none => (st.acc, false)

def onStep (ctx : TechniqueContext K) (runStep : StepM K V (Entry S V F)) :
    StepM K V (Entry S V F) := fun s =>
  let st := ((s.scratch.get? (key ctx.cacheKey)).bind Sum.getLeft?).getD .empty
  let modulated := (s.scratch.get? (signalKey ctx.cacheKey)).bind Sum.getRight?
  let (acc, reuse) := measure ops p st (p.compared ctx st modulated)
  let st := { st with acc := acc, prev := modulated.or st.prev }
  match if reuse then st.out else none with
  | some out =>
    let st := { st with hits := st.hits + 1, since := st.since + 1 }
    (out, { s with scratch := s.scratch.set (key ctx.cacheKey) (.inl st) })
  | none =>
    let (out, s) := runStep s
    let st := { st with out := some out, acc := 0.0, hits := 0, since := 0 }
    (out, { s with scratch := s.scratch.set (key ctx.cacheKey) (.inl st) })

def technique : Technique K V (Entry S V F) :=
  { name := "teacache", phase := .onStep, reads := {.stepOutput}, writes := {.stepOutput}
    enabled := p.enabled
    onStep := onStep ops p }

/-! ## Runs of a plan -/

/-- One step of a run: where it stands, the signal the model left, and the output that its computation
    gives. -/
structure StepInput (S V : Type) where
  step : Int
  stage : String
  signal : Option S
  output : V
deriving DecidableEq

structure Record (S V : Type) where
  input : StepInput S V
  value : V
  /-- The step was not computed. -/
  cached : Bool
deriving DecidableEq

def stash (cacheKey : K) (signal : Option S) (s : StepState K V (Entry S V F)) :
    StepState K V (Entry S V F) :=
  match signal with
  | some signal => { s with scratch := s.scratch.set (signalKey cacheKey) (.inr signal) }
  | none => { s with scratch := s.scratch.erase (signalKey cacheKey) }

def runStep (x : StepInput S V) : StepM K V (Entry S V F) :=
  fun s => (x.output, { s with calls := s.calls + 1 })

def planStep (plan : Plan K V (Entry S V F)) (cacheKey : K) (s : StepState K V (Entry S V F))
    (x : StepInput S V) : Record S V × StepState K V (Entry S V F) :=
  let s := stash cacheKey x.signal s
  let ctx : TechniqueContext K := { step := x.step, stage := x.stage, cacheKey := cacheKey }
  let (out, s') := plan.onStep ctx (runStep x) s
  (⟨x, out, decide (s'.calls = s.calls)⟩, s')

/-! ## What the cache is for -/

def lastSignal (earlier : List (Record S V)) : Option S := earlier.findSome? fun r => r.input.signal

def stepDistance : Option S → Option S → F
  | some modulated, some prev => p.rescale (relDistance ops modulated prev)
  | _, _ => 0.0

/-- The sum of the distances since the last computed step, that step excluded. -/
def accumulated (ops : SignalOps S F) (p : TeaCache F) : List (Record S V) → F
  | [] => 0.0
  | r :: earlier =>
    if r.cached then
      accumulated ops p earlier + stepDistance ops p r.input.signal (lastSignal earlier)
    else 0.0

/-- The cached answers since the last computed step. -/
def streak (history : List (Record S V)) : List (Record S V) := history.takeWhile fun r => r.cached

/-- What a cached answer promises, given the steps before it. -/
structure Bounded (ops : SignalOps S F) (p : TeaCache F) (r : Record S V)
    (earlier : List (Record S V)) : Prop where
  distance : accumulated ops p (r :: earlier) < p.threshold
  hits : (streak (r :: earlier)).length ≤ p.maxContinuousHits
  started : p.startStep ≤ r.input.step
  signal : r.input.signal.isSome
  value : ∃ c, earlier.find? (fun r => !r.cached) = some c ∧ r.value = c.input.output
  periodic : 0 < p.periodicRecompute → (streak (r :: earlier)).length ≤ p.periodicRecompute

end Floats

/-! ## When a composed TeaCache bounds its error and its streaks

The hook treats a step on which the technique is inactive as a computed one, but `Plan.on_step` does
not call the hook on such a step. The cache then keeps the output, the signal and the accumulator from
before it. The promises of the cache hold in the runs in which no such step lies between an active step
and one that could be answered from the cache. -/

/-! ## The scratch dictionary -/

def held (cacheKey : K) (s : StepState K V (Entry S V F)) : Option (State S V F) :=
  (s.scratch.get? (key cacheKey)).bind Sum.getLeft?

theorem held_stash (cacheKey : K) (signal : Option S) (s : StepState K V (Entry S V F)) :
    held cacheKey (stash cacheKey signal s) = held cacheKey s := by
  have hne : signalKey cacheKey ≠ key cacheKey := by simp [signalKey, key]
  cases signal with
  | none => simp [held, stash, Dict.get?_erase_of_ne _ hne]
  | some signal => simp [held, stash, Dict.get?_set_of_ne _ _ hne]

theorem signal_stash (cacheKey : K) (signal : Option S) (s : StepState K V (Entry S V F)) :
    ((stash cacheKey signal s).scratch.get? (signalKey cacheKey)).bind Sum.getRight? = signal := by
  cases signal with
  | none => simp [stash]
  | some signal => simp [stash]

variable [Add F] [Mul F] [Div F] [LT F] [DecidableLT F] [OfScientific F]
  {ops : SignalOps S F} {p : TeaCache F} {cacheKey : K} {history : List (Record S V)} {x : StepInput S V}
variable {st : State S V F} {acc : F}

/-! ## The condition -/

def Active (p : TeaCache F) (x : StepInput S V) : Prop := p.enabled.atStep x.step x.stage = true

/-- The technique is active, has a signal and is past its start step. -/
def Eligible (p : TeaCache F) (x : StepInput S V) : Prop :=
  Active p x ∧ x.signal.isSome ∧ p.startStep ≤ x.step

/-- Once the technique has been active, it was active on every step. -/
def Contiguous (p : TeaCache F) (history : List (Record S V)) : Prop :=
  history.Pairwise fun newer older => Active p older.input → Active p newer.input

/-! ## One step -/

section Step

variable {plan : Plan K V (Entry S V F)}
  (hplan : plan.techniques.filter (fun t => t.phase = .onStep) = [technique ops p])
  (s : StepState K V (Entry S V F)) (x : StepInput S V)
include hplan

/-- An inactive step is computed, and the cache does not learn of it. -/
theorem planStep_inactive (hx : ¬ Active p x) :
    (planStep plan cacheKey s x).1 = ⟨x, x.output, false⟩ ∧
      held cacheKey (planStep plan cacheKey s x).2 = held cacheKey s := by
  have hstep : plan.onStep ⟨x.step, x.stage, cacheKey⟩ (runStep x) = runStep x := by
    rw [Plan.onStep, Plan.active_eq hplan, if_neg]
    · rfl
    · simpa [technique, Technique.isActive, Schedule.const, Schedule.atStep, Active] using hx
  refine ⟨?_, ?_⟩
  · simp [planStep, hstep, runStep]
  · simp only [planStep, hstep, runStep]
    exact held_stash cacheKey x.signal s

theorem planStep_active (hx : Active p x) {reuse : Bool} (hst : (held cacheKey s).getD .empty = st)
    (hmeasure : measure ops p st (p.compared ⟨x.step, x.stage, cacheKey⟩ st x.signal) = (acc, reuse)) :
    (∃ out, reuse = true ∧ st.out = some out ∧ (planStep plan cacheKey s x).1 = ⟨x, out, true⟩ ∧
      held cacheKey (planStep plan cacheKey s x).2 =
        some ⟨x.signal.or st.prev, acc, st.hits + 1, st.out, st.since + 1⟩) ∨
    ((planStep plan cacheKey s x).1 = ⟨x, x.output, false⟩ ∧
      held cacheKey (planStep plan cacheKey s x).2 =
        some ⟨x.signal.or st.prev, 0.0, 0, some x.output, 0⟩) := by
  have hstep : plan.onStep ⟨x.step, x.stage, cacheKey⟩ (runStep x) =
      onStep ops p ⟨x.step, x.stage, cacheKey⟩ (runStep x) := by
    rw [Plan.onStep, Plan.active_eq hplan, if_pos]
    · rfl
    · simpa [technique, Technique.isActive, Schedule.const, Schedule.atStep, Active] using hx
  have hstashed : (((stash cacheKey x.signal s).scratch.get? (key cacheKey)).bind
      Sum.getLeft?).getD .empty = st :=
    (congrArg (fun o : Option (State S V F) => o.getD .empty)
      (held_stash cacheKey x.signal s)).trans hst
  have hheld (s : StepState K V (Entry S V F)) (st : State S V F) :
      held cacheKey { s with scratch := s.scratch.set (key cacheKey) (.inl st) } = some st := by
    simp [held]
  simp only [planStep, hstep, onStep, hstashed, signal_stash, hmeasure]
  cases hanswer : if reuse then st.out else none with
  | none => exact .inr ⟨by simp [runStep], hheld _ _⟩
  | some out =>
    obtain ⟨hreuse, hout⟩ : reuse = true ∧ st.out = some out := by
      cases reuse <;> simp_all
    exact .inl ⟨out, hreuse, hout, by simp, hheld _ _⟩

end Step

omit [DecidableEq K] in
theorem of_measure
    (h : measure ops p st (p.compared ⟨x.step, x.stage, cacheKey⟩ st x.signal) = (acc, true)) :
    ∃ modulated prev, x.signal = some modulated ∧ st.prev = some prev ∧ p.startStep ≤ x.step ∧
      (0 < p.periodicRecompute → st.since < p.periodicRecompute) ∧
      acc = st.acc + p.rescale (relDistance ops modulated prev) ∧
      acc < p.threshold ∧ st.hits < p.maxContinuousHits := by
  unfold compared at h
  split at h
  · simp [measure] at h
  next hfree =>
    split at h
    next modulated prev hsignal hprev =>
      simp only [measure, Prod.mk.injEq, decide_eq_true_eq] at h
      obtain ⟨rfl, hlt, hhits⟩ := h
      push Not at hfree
      exact ⟨modulated, prev, hsignal, hprev, hfree.2.1,
        fun hpos => hfree.2.2 (ne_of_gt hpos), rfl, hlt, hhits⟩
    · simp [measure] at h

/-! ## What the cache holds -/

/-- The state of the cache after the steps of a history, if it missed none of them. -/
structure Tracks (ops : SignalOps S F) (p : TeaCache F) (st : State S V F)
    (history : List (Record S V)) : Prop where
  active : ∃ r ∈ history, Active p r.input
  prev : ∀ prev, st.prev = some prev → lastSignal history = some prev
  acc : st.acc = accumulated ops p history
  hits : st.hits = (streak history).length
  since : st.since = (streak history).length
  out : ∃ c, history.find? (fun r => !r.cached) = some c ∧ st.out = some c.input.output

/-- While the technique was active without a gap, the cache is empty or tracks the history. -/
def Related (ops : SignalOps S F) (p : TeaCache F) (cacheKey : K) (s : StepState K V (Entry S V F))
    (history : List (Record S V)) : Prop :=
  Contiguous p history →
    (held cacheKey s = none ∧ ∀ r ∈ history, ¬ Active p r.input) ∨
      ∃ st, held cacheKey s = some st ∧ Tracks ops p st history

omit [DecidableEq K] [Add F] [Mul F] [Div F] [LT F] [DecidableLT F] [OfScientific F] in
theorem lastSignal_cons {r : Record S V} {prev : Option S} {m : S}
    (hprev : ∀ m, prev = some m → lastSignal history = some m)
    (hm : r.input.signal.or prev = some m) : lastSignal (r :: history) = some m := by
  cases hsignal : r.input.signal with
  | none =>
    rw [hsignal, Option.none_or] at hm
    simp only [lastSignal, List.findSome?_cons, hsignal]
    exact hprev m hm
  | some modulated =>
    rw [hsignal, Option.some_or, Option.some.injEq] at hm
    simp [lastSignal, hsignal, hm]

theorem Tracks.computed {prev : Option S}
    (hx : Active p x) (hprev : ∀ m, prev = some m → lastSignal history = some m) :
    Tracks ops p (⟨x.signal.or prev, 0.0, 0, some x.output, 0⟩ : State S V F)
      (⟨x, x.output, false⟩ :: history) where
  active := ⟨_, List.mem_cons_self .., hx⟩
  prev _ hm := lastSignal_cons hprev hm
  acc := by simp [accumulated]
  hits := by simp [streak]
  since := by simp [streak]
  out := ⟨⟨x, x.output, false⟩, by simp, rfl⟩

omit [DecidableEq K] in
theorem Tracks.hit {out : V} (h : Tracks ops p st history)
    (hmeasure : measure ops p st (p.compared ⟨x.step, x.stage, cacheKey⟩ st x.signal) = (acc, true))
    (hx : Active p x) (hout : st.out = some out) :
    Bounded ops p ⟨x, out, true⟩ history ∧
      Tracks ops p ⟨x.signal.or st.prev, acc, st.hits + 1, st.out, st.since + 1⟩
        (⟨x, out, true⟩ :: history) := by
  obtain ⟨modulated, prev, hsignal, hprev, hstart, hperiodic, hacc, hlt, hhits⟩ := of_measure hmeasure
  obtain ⟨c, hc, hcout⟩ := h.out
  have hsum : accumulated ops p (⟨x, out, true⟩ :: history) = acc := by
    simp [accumulated, hsignal, h.prev prev hprev, stepDistance, hacc, h.acc]
  have hstreak : streak (⟨x, out, true⟩ :: history) = ⟨x, out, true⟩ :: streak history := by
    simp [streak]
  refine ⟨⟨hsum ▸ hlt, ?_, hstart, by simp [hsignal], ⟨c, hc, ?_⟩, fun hpos => ?_⟩,
    ⟨⟨_, List.mem_cons_self .., hx⟩, fun _ hm => lastSignal_cons h.prev hm, hsum.symm, ?_, ?_,
      ⟨c, by simp [hc], hcout⟩⟩⟩
  · rw [hstreak, List.length_cons]
    have hlength := h.hits
    omega
  · exact Option.some.inj (hout.symm.trans hcout)
  · rw [hstreak, List.length_cons]
    have hlength := h.since
    have hsince := hperiodic hpos
    omega
  · rw [hstreak, List.length_cons, h.hits]
    rfl
  · rw [hstreak, List.length_cons, h.since]
    rfl

theorem planStep_related {plan : Plan K V (Entry S V F)}
    (hplan : plan.techniques.filter (fun t => t.phase = .onStep) = [technique ops p])
    (s : StepState K V (Entry S V F)) (history : List (Record S V)) (x : StepInput S V)
    (h : Related ops p cacheKey s history) (hcond : Eligible p x → Contiguous p history) :
    ((planStep plan cacheKey s x).1.cached = true →
        Bounded ops p (planStep plan cacheKey s x).1 history) ∧
      Related ops p cacheKey (planStep plan cacheKey s x).2
        ((planStep plan cacheKey s x).1 :: history) := by
  by_cases hx : Active p x
  · obtain ⟨st, hst⟩ : ∃ st, (held cacheKey s).getD .empty = st := ⟨_, rfl⟩
    obtain ⟨⟨acc, reuse⟩, hmeasure⟩ :
      ∃ m, measure ops p st (p.compared ⟨x.step, x.stage, cacheKey⟩ st x.signal) = m := ⟨_, rfl⟩
    rcases planStep_active hplan s x hx hst hmeasure with
      ⟨out, rfl, hout, hrecord, hheld⟩ | ⟨hrecord, hheld⟩
    · -- a cached answer: the step is eligible, so the cache tracks the history
      obtain ⟨modulated, prev, hsignal, hprev, hstart, -⟩ := of_measure hmeasure
      have hcontiguous := hcond ⟨hx, by simp [hsignal], hstart⟩
      rcases h hcontiguous with ⟨hnone, -⟩ | ⟨st', hheld', htracks⟩
      · rw [hnone] at hst
        subst hst
        cases hprev
      · obtain rfl : st' = st := by rw [← hst, hheld']; rfl
        obtain ⟨hbounded, hnext⟩ := htracks.hit hmeasure hx hout
        rw [hrecord]
        exact ⟨fun _ => hbounded, fun _ => .inr ⟨_, hheld, hnext⟩⟩
    · rw [hrecord]
      refine ⟨by simp, fun hcontiguous => .inr ⟨_, hheld, Tracks.computed hx ?_⟩⟩
      intro m hm
      rcases h (List.Pairwise.of_cons hcontiguous) with ⟨hnone, -⟩ | ⟨st', hheld', htracks⟩
      · rw [hnone] at hst
        subst hst
        cases hm
      · obtain rfl : st' = st := by rw [← hst, hheld']; rfl
        exact htracks.prev m hm
  · obtain ⟨hrecord, hheld⟩ := planStep_inactive hplan s x hx
    rw [hrecord]
    refine ⟨by simp, fun hcontiguous => ?_⟩
    -- no step before this one was active, so the cache is still empty
    have hnever : ∀ r ∈ history, ¬ Active p r.input := fun r hr hactive =>
      hx ((List.pairwise_cons.1 hcontiguous).1 r hr hactive)
    rcases h (List.Pairwise.of_cons hcontiguous) with ⟨hnone, -⟩ | ⟨st', -, htracks⟩
    · refine .inl ⟨hheld.trans hnone, fun r hr => ?_⟩
      rcases List.mem_cons.1 hr with rfl | hr
      · exact hx
      · exact hnever r hr
    · obtain ⟨r, hr, hactive⟩ := htracks.active
      exact absurd hactive (hnever r hr)

/-- **A plan with a TeaCache bounds its error and its streaks** in every run in which no step that the
    cache could answer comes after a gap of inactive steps. -/
theorem planStep_bounded {plan : Plan K V (Entry S V F)} (cacheKey : K)
    (s₀ : StepState K V (Entry S V F)) {s : StepState K V (Entry S V F) × List (Record S V)}
    (hplan : plan.techniques.filter (fun t => t.phase = .onStep) = [technique ops p])
    (hs₀ : s₀.scratch.get? (key cacheKey) = none)
    (h : Run.Reaches (History.log (planStep plan cacheKey))
      (fun s x => Eligible p x → Contiguous p s.2) (s₀, []) s) :
    History.Always (fun r earlier => r.cached = true → Bounded ops p r earlier) s.2 := by
  have hstart : Related ops p cacheKey s₀ [] := fun _ => .inl ⟨by simp [held, hs₀], by simp⟩
  exact (History.always_of_reaches h hstart
    (fun s earlier x hrel hcond => planStep_related hplan s earlier x hrel hcond)).2

/-! ## Two runs -/

def numberOps : SignalOps ℚ ℚ := ⟨fun a b => |a - b|, fun a => |a|⟩

def unitStep (step : Int) (output : ℚ) : StepInput ℚ ℚ := ⟨step, "", some 1, output⟩

def eager (enabled : Schedule Bool) : TeaCache ℚ := .new 0.04 0 none 1 0 enabled

def eagerPlan (enabled : Schedule Bool) : Plan Unit ℚ (Entry ℚ ℚ ℚ) where
  transforms := []
  techniques := [technique numberOps (eager enabled)]
  spec := { name := "model", capabilities := ∅ }

/-- A cache that is always on answers the second of two steps, within its bounds. -/
theorem planStep_bounded_two_steps :
    ∃ s, Run.exec (History.log (planStep (eagerPlan (Schedule.const true)) ())) (⟨.empty, 0⟩, [])
        [unitStep 0 10, unitStep 1 20] = some s ∧
      s.2 = [⟨unitStep 1 20, 10, true⟩, ⟨unitStep 0 10, 10, false⟩] ∧
      History.Always (fun r earlier => r.cached = true →
        Bounded numberOps (eager (Schedule.const true)) r earlier) s.2 := by
  refine ⟨_, rfl, by decide +kernel, planStep_bounded () ⟨.empty, 0⟩ rfl rfl
    (.step (e := unitStep 1 20) (.step (e := unitStep 0 10) .refl ?_ rfl) ?_ rfl)⟩
  · exact fun _ => List.Pairwise.nil
  · exact fun _ => List.pairwise_singleton _ _

/-- A cache that is off on the second of three steps answers the third with the output of the first,
    although the second was computed since. -/
theorem planStep_replays_before_gap :
    compose [.technique (technique numberOps (eager (Schedule.atSteps [0, 2] true false)))]
        { name := "model", capabilities := ∅ } 64 =
      .ok (eagerPlan (Schedule.atSteps [0, 2] true false)) ∧
    ∃ s, Run.Reaches (History.log (planStep (eagerPlan (Schedule.atSteps [0, 2] true false)) ()))
        (fun _ _ => True) (⟨.empty, 0⟩, []) s ∧
      s.2 = [⟨unitStep 2 30, 10, true⟩, ⟨unitStep 1 20, 20, false⟩, ⟨unitStep 0 10, 10, false⟩] ∧
      ¬ History.Always (fun r earlier => r.cached = true →
        Bounded numberOps (eager (Schedule.atSteps [0, 2] true false)) r earlier) s.2 := by
  refine ⟨rfl, ?_⟩
  obtain ⟨s, hexec, hhistory⟩ : ∃ s, Run.exec
      (History.log (planStep (eagerPlan (Schedule.atSteps [0, 2] true false)) ())) (⟨.empty, 0⟩, [])
      [unitStep 0 10, unitStep 1 20, unitStep 2 30] = some s ∧
      s.2 = [⟨unitStep 2 30, 10, true⟩, ⟨unitStep 1 20, 20, false⟩, ⟨unitStep 0 10, 10, false⟩] :=
    ⟨_, rfl, by decide +kernel⟩
  refine ⟨s, Run.reaches_of_exec hexec, hhistory, ?_⟩
  rw [hhistory]
  rintro ⟨hbounded, -⟩
  obtain ⟨c, hc, hvalue⟩ := (hbounded rfl).value
  cases hc
  exact absurd hvalue (by decide)

end TeaCache
