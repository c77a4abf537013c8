import SolInfer.Efficiency.Compose

set_option autoImplicit false

/-! # The step cache

`efficiency/techniques/step_cache.py`: on the steps of its schedule the cache is meant to replace the
output of the step by the last computed output, extrapolated along the last difference. The outputs
form a rational vector space; `delta_scale` is the rational of the float. -/

variable {K V : Type} [DecidableEq K] [AddCommGroup V] [Module ℚ V]

namespace StepCache

def key (cacheKey : K) : String × K := ("step_cache", cacheKey)

/-- `StepCache.on_step`; the scratch entry holds the last output and the last difference. -/
def onStep (enabled : Schedule Bool) (deltaScale : ℚ) (ctx : TechniqueContext K)
    (runStep : StepM K V) : StepM K V := fun s =>
  let prev := s.scratch.get? (key ctx.cacheKey)
  match enabled.atStep ctx.step ctx.stage, prev with
  | true, some (lastOut, lastDelta) =>
    match lastDelta with
    | some d => if deltaScale ≠ 0 then (lastOut + deltaScale • d, s) else (lastOut, s)
    | none => (lastOut, s)
  | _, _ =>
    let (out, s) := runStep s
    let delta := prev.map fun p => out - p.1
    (out, { s with scratch := s.scratch.set (key ctx.cacheKey) (out, delta) })

/-- `StepCache(skip, delta_scale, enabled)`: on exactly the skip steps, if they are given. -/
def technique (skip : Option (Schedule Bool)) (deltaScale : ℚ)
    (enabled : Schedule Bool := Schedule.const true) : Technique K V :=
  { name := "step_cache", phase := .onStep, reads := {.stepOutput}, writes := {.stepOutput}
    enabled := skip.getD enabled
    onStep := onStep (skip.getD enabled) deltaScale }

/-! ## Runs of a plan -/

/-- One step of a run: where it stands and the output that its computation gives. -/
structure StepInput (V : Type) where
  step : Int
  stage : String
  output : V

/-- `run_step()` of a step. -/
def runStep (x : StepInput V) : StepM K V := fun s => (x.output, { s with calls := s.calls + 1 })

/-- `Plan.on_step` over the steps of a run: the returned output of each step and whether the step
    was computed. -/
def runPlan (p : Plan K V) (cacheKey : K) : StepState K V → List (StepInput V) → List (V × Bool)
  | _, [] => []
  | s, x :: rest =>
    let ctx : TechniqueContext K := { step := x.step, stage := x.stage, cacheKey := cacheKey }
    let (out, s') := p.onStep ctx (runStep x) s
    (out, decide (s.calls < s'.calls)) :: runPlan p cacheKey s' rest

/-! ## What the cache is for -/

/-- The output of a skipped step, from the outputs computed so far, the last one first. -/
def extrapolate (deltaScale : ℚ) : List V → V
  | [] => 0
  | [last] => last
  | last :: previous :: _ => if deltaScale = 0 then last else last + deltaScale • (last - previous)

/-- The intended run: the first step and the unscheduled ones are computed, every other one reuses
    what was computed before it. -/
def intended (skip : Schedule Bool) (deltaScale : ℚ) :
    List V → List (StepInput V) → List (V × Bool)
  | _, [] => []
  | computed, x :: rest =>
    if computed = [] ∨ skip.atStep x.step x.stage = false then
      (x.output, true) :: intended skip deltaScale (x.output :: computed) rest
    else (extrapolate deltaScale computed, false) :: intended skip deltaScale computed rest

/-! ## When a composed step cache does what it is for

`Plan.on_step` calls the hook of a technique only on the steps where the technique is active, so the
cache is filled on its first scheduled step and never refreshed on an unscheduled one. The run of a
plan is as intended exactly when no computed step comes between the first step and a scheduled one. -/

open List

/-! ## The run of a plan as a function of the cached output -/

/-- What the plan returns: the first scheduled step fills the cache, later ones replay it. -/
def replay (skip : Schedule Bool) : Option V → List (StepInput V) → List (V × Bool)
  | _, [] => []
  | seed, x :: rest =>
    if skip.atStep x.step x.stage = true then
      (seed.getD x.output, seed.isNone) :: replay skip (some (seed.getD x.output)) rest
    else (x.output, true) :: replay skip seed rest

variable {skip : Schedule Bool} {deltaScale : ℚ} {xs : List (StepInput V)} {computed : List V}
variable {pre : List Bool}

section

variable {p : Plan K V}
  (hp : p.techniques.filter (fun t => t.phase = .onStep) = [technique (some skip) deltaScale])
include hp

theorem active_eq (ctx : TechniqueContext K) :
    p.active ctx .onStep
      = if skip.atStep ctx.step ctx.stage = true then [technique (some skip) deltaScale] else [] := by
  rw [Plan.active_eq hp]
  cases h : skip.atStep ctx.step ctx.stage <;>
    simp [technique, Technique.isActive, Schedule.const, Schedule.atStep] <;>
    simpa [Schedule.atStep] using h

/-- The scratch entry never gets a difference: the hook does not run on unscheduled steps. -/
theorem runPlan_eq_replay {cacheKey : K} {s : StepState K V} (seed : Option V)
    (hs : s.scratch.get? (key cacheKey) = seed.map (fun out => (out, none))) (xs : List (StepInput V)) :
    runPlan p cacheKey s xs = replay skip seed xs := by
  induction xs generalizing s seed with
  | nil => rfl
  | cons x rest ih =>
    rw [runPlan, replay]
    simp only [Plan.onStep, active_eq hp]
    cases hskip : skip.atStep x.step x.stage with
    | false =>
      have hrest := ih (s := { s with calls := s.calls + 1 }) seed hs
      simpa [runStep] using hrest
    | true =>
      cases seed with
      | none =>
        have hrest := ih (s := {
          scratch := s.scratch.set (key cacheKey) (x.output, none), calls := s.calls + 1 })
          (some x.output) (by simp)
        simpa [technique, onStep, hskip, hs, runStep] using hrest
      | some out =>
        have hrest := ih _ hs
        simpa [technique, onStep, hskip, hs] using hrest

end

/-! ## Which runs are as intended -/

/-- Before a scheduled step no step is unscheduled, or `delta_scale` is `-1`, exactly one is, and it
    is not the first; `bs` tells which steps are scheduled. -/
def Harmless (deltaScale : ℚ) (bs : List Bool) : Prop :=
  ∀ pre post, bs = pre ++ true :: post →
    pre.count false = 0 ∨ (deltaScale = -1 ∧ pre.head? = some true ∧ pre.count false = 1)

def flags (skip : Schedule Bool) (xs : List (StepInput V)) : List Bool :=
  xs.map fun x => skip.atStep x.step x.stage

/-- How the cached output and the computed outputs stand after the steps with flags `pre`. -/
inductive After : List Bool → Option V → List V → Prop where
  | start : After [] none []
  | filled {pre : List Bool} {out : V} {later : List V} (hhead : pre.head? = some true)
      (hlen : later.length = pre.count false) : After pre (some out) (later ++ [out])
  | unfilled {pre : List Bool} {computed : List V} (hhead : pre.head? = some false)
      (hnone : true ∉ pre) (hne : computed ≠ []) : After pre none computed

theorem head?_append_singleton {b c : Bool} (h : pre.head? = some b) : (pre ++ [c]).head? = some b := by
  cases pre with
  | nil => cases h
  | cons a rest => exact h

omit [AddCommGroup V] [Module ℚ V] in
theorem After.unscheduled {seed : Option V}
    (h : After pre seed computed) (out : V) : After (pre ++ [false]) seed (out :: computed) := by
  cases h with
  | start => exact .unfilled rfl (by simp) (by simp)
  | filled hhead hlen =>
    rw [← cons_append]
    exact .filled (head?_append_singleton hhead) (by simp [hlen])
  | unfilled hhead hnone hne =>
    exact .unfilled (head?_append_singleton hhead) (by simpa using hnone) (by simp)

theorem replay_eq_intended {seed : Option V} (hst : After pre seed computed)
    (h : Harmless deltaScale (pre ++ flags skip xs)) :
    replay skip seed xs = intended skip deltaScale computed xs := by
  induction xs generalizing pre seed computed with
  | nil => rfl
  | cons x rest ih =>
    have hflags : pre ++ flags skip (x :: rest)
        = (pre ++ [skip.atStep x.step x.stage]) ++ flags skip rest := by simp [flags]
    rw [replay, intended]
    cases hskip : skip.atStep x.step x.stage with
    | false =>
      rw [hflags, hskip] at h
      simp [ih (hst.unscheduled x.output) h]
    | true =>
      have hpre := h pre (flags skip rest) (by simp [flags, hskip])
      rw [hflags, hskip] at h
      cases hst with
      | start =>
        have hnext : After ([] ++ [true]) (some x.output) ([] ++ [x.output]) :=
          .filled rfl rfl
        simpa using ih hnext h
      | filled hhead hlen =>
        next out later =>
        have hnext : After (pre ++ [true]) (some out) (later ++ [out]) :=
          .filled (head?_append_singleton hhead) (by simp [hlen])
        have hvalue : extrapolate deltaScale (later ++ [out]) = out := by
          rcases hpre with hz | ⟨hd, -, hone⟩
          · rw [hz, length_eq_zero_iff] at hlen
            rw [hlen]
            rfl
          · rw [hone, length_eq_one_iff] at hlen
            obtain ⟨f, rfl⟩ := hlen
            simp [extrapolate, hd]
        simp [hvalue, ih hnext h]
      | unfilled hhead hnone hne =>
        -- a step before this one is unscheduled, and it is the first
        exfalso
        cases pre with
        | nil => cases hhead
        | cons a as =>
          cases hhead
          rcases hpre with hz | ⟨-, hd, -⟩
          · simp at hz
          · cases hd

/-- The replayed output is right only if nothing was computed since, up to the one exception. -/
theorem extrapolate_eq_zero {v : V} (hv : v ≠ 0) {n : Nat}
    (h : extrapolate deltaScale (replicate n v ++ [0]) = 0) :
    n = 0 ∨ (deltaScale = -1 ∧ n = 1) := by
  match n with
  | 0 => exact .inl rfl
  | 1 =>
    right
    by_cases hd : deltaScale = 0
    · exact absurd (by simpa [extrapolate, hd] using h) hv
    · have hsum : (1 + deltaScale) • v = 0 := by
        rw [add_smul, one_smul]
        simpa [extrapolate, hd] using h
      have hone := (smul_eq_zero.1 hsum).resolve_right hv
      exact ⟨by linarith, rfl⟩
  | n + 2 =>
    have hlast : extrapolate deltaScale (replicate (n + 2) v ++ [0]) = v := by
      simp [replicate_succ, extrapolate]
    exact absurd (hlast.symm.trans h) hv

theorem harmless_of_filled {v : V} (hv : v ≠ 0) (hout : ∀ x ∈ xs, x.output = v) (pre : List Bool)
    (hhead : pre.head? = some true) (h : replay skip (some 0) xs
      = intended skip deltaScale (replicate (pre.count false) v ++ [0]) xs) :
    ∀ mid post, flags skip xs = mid ++ true :: post →
      (pre ++ mid).count false = 0 ∨
        (deltaScale = -1 ∧ (pre ++ mid).head? = some true ∧ (pre ++ mid).count false = 1) := by
  induction xs generalizing pre with
  | nil =>
    intro mid post hflags
    simp [flags] at hflags
  | cons x rest ih =>
    intro mid post hflags
    have hrest : ∀ y ∈ rest, y.output = v := fun y hy => hout y (.tail _ hy)
    rw [replay, intended] at h
    cases hskip : skip.atStep x.step x.stage with
    | false =>
      simp only [hskip, Bool.false_eq_true, if_false, or_true, if_true, List.cons.injEq] at h
      cases mid with
      | nil => simp [flags, hskip] at hflags
      | cons b mid =>
        simp only [flags, map_cons, hskip, cons_append, List.cons.injEq] at hflags
        have hcomputed : replay skip (some 0) rest = intended skip deltaScale
            (replicate ((pre ++ [false]).count false) v ++ [0]) rest := by
          rw [hout x mem_cons_self] at h
          rw [count_append, count_singleton_self, replicate_succ]
          exact h.2
        have hnext := ih hrest (pre ++ [false]) (head?_append_singleton hhead) hcomputed
          mid post hflags.2
        rw [← hflags.1]
        simpa using hnext
    | true =>
      have hne : replicate (pre.count false) v ++ [(0 : V)] ≠ [] := by simp
      simp only [hskip, if_true, hne, Bool.true_eq_false, or_self, if_false, List.cons.injEq,
        Prod.mk.injEq, Option.getD_some] at h
      cases mid with
      | nil =>
        rw [append_nil]
        rcases extrapolate_eq_zero hv h.1.1.symm with hz | ⟨hd, hone⟩
        · exact .inl hz
        · exact .inr ⟨hd, hhead, hone⟩
      | cons b mid =>
        simp only [flags, map_cons, hskip, cons_append, List.cons.injEq] at hflags
        have hnext := ih hrest (pre ++ [true]) (head?_append_singleton hhead)
          (by simpa using h.2) mid post hflags.2
        rw [← hflags.1]
        simpa using hnext

theorem not_mem_flags_of_unfilled (hne : computed ≠ [])
    (h : replay skip none xs = intended skip deltaScale computed xs) : true ∉ flags skip xs := by
  induction xs generalizing computed with
  | nil => simp [flags]
  | cons x rest ih =>
    rw [replay, intended] at h
    cases hskip : skip.atStep x.step x.stage with
    | false =>
      simp only [hskip, Bool.false_eq_true, if_false, or_true, if_true, List.cons.injEq] at h
      have hrest := ih (by simp) h.2
      simpa [flags, hskip] using hrest
    | true => simp [hskip, hne] at h

def inputs (steps : List (Int × String)) (outputs : Int → V) : List (StepInput V) :=
  steps.map fun c => { step := c.1, stage := c.2, output := outputs c.1 }

/-- **A plan with a step cache runs as intended, whatever the steps compute, exactly when the run is
    harmless**: no unscheduled step comes before a scheduled one, or `delta_scale` is `-1`, the first
    step is scheduled and one unscheduled step does. -/
theorem runPlan_intended_iff_harmless [Nontrivial V] {p : Plan K V} {skip : Schedule Bool}
    {deltaScale : ℚ} {cacheKey : K} {s : StepState K V} {steps : List (Int × String)}
    (hp : p.techniques.filter (fun t => t.phase = .onStep) = [technique (some skip) deltaScale])
    (hs : s.scratch.get? (key cacheKey) = none)
    (hsteps : steps.Pairwise (fun c d => c.1 < d.1)) :
    (∀ outputs : Int → V, runPlan p cacheKey s (inputs steps outputs)
        = intended skip deltaScale [] (inputs steps outputs)) ↔
      Harmless deltaScale (steps.map (fun c => skip.atStep c.1 c.2)) := by
  have hflags : ∀ outputs : Int → V, flags skip (inputs steps outputs)
      = steps.map (fun c => skip.atStep c.1 c.2) := by
    intro outputs
    simp [flags, inputs, Function.comp_def]
  have hrun : ∀ xs, runPlan p cacheKey s xs = replay skip none xs :=
    runPlan_eq_replay hp none (by simpa using hs)
  simp only [hrun]
  constructor
  · intro hall
    obtain ⟨v, hv⟩ := exists_ne (0 : V)
    cases steps with
    | nil =>
      intro pre post hnil
      simp at hnil
    | cons c rest =>
      -- the first step gives zero and every later one the same nonzero output
      have h := hall fun step => if step = c.1 then 0 else v
      have hfl := hflags fun step => if step = c.1 then 0 else v
      have hout : ∀ x ∈ inputs rest (fun step => if step = c.1 then (0 : V) else v), x.output = v := by
        intro x hx
        obtain ⟨d, hd, rfl⟩ := mem_map.1 hx
        exact if_neg (Ne.symm (ne_of_lt ((pairwise_cons.1 hsteps).1 d hd)))
      rw [← hfl]
      intro pre post hsplit
      rw [inputs, map_cons, replay, intended] at h
      cases hskip : skip.atStep c.1 c.2 with
      | false =>
        simp only [hskip, Bool.false_eq_true, if_false, or_true, if_true, List.cons.injEq] at h
        have hno := not_mem_flags_of_unfilled (by simp) h.2
        exfalso
        cases pre with
        | nil => simp [flags, inputs, hskip] at hsplit
        | cons b pre =>
          simp only [inputs, flags, map_cons, cons_append, List.cons.injEq] at hsplit
          exact hno (by simp only [flags, hsplit.2]; simp)
      | true =>
        simp only [hskip, if_true, true_or, List.cons.injEq] at h
        cases pre with
        | nil => exact .inl rfl
        | cons b pre =>
          simp only [inputs, flags, map_cons, cons_append, List.cons.injEq, hskip]
            at hsplit
          have hcond := harmless_of_filled hv hout [true] rfl
            (by simpa [inputs] using h.2) pre post hsplit.2
          rw [← hsplit.1]
          exact hcond
  · intro hh outputs
    exact replay_eq_intended After.start (by rw [hflags]; exact hh)

/-- A cache that is on for the first two of three steps replays the first output once. -/
theorem runPlan_intended_two_steps :
    ∃ p : Plan Unit ℚ, compose [.technique (technique (some (Schedule.before 2 true false)) (1 / 2))]
        { name := "model", capabilities := ∅ } 64 = .ok p ∧
      ∀ outputs : Int → ℚ,
        runPlan p () ⟨Dict.empty, 0⟩ (inputs [(0, ""), (1, ""), (2, "")] outputs)
          = intended (Schedule.before 2 true false) (1 / 2) []
              (inputs [(0, ""), (1, ""), (2, "")] outputs) := by
  refine ⟨_, rfl, (runPlan_intended_iff_harmless rfl rfl (by decide)).2 ?_⟩
  intro pre post hsplit
  change [true, true, false] = pre ++ true :: post at hsplit
  left
  rcases pre with _ | ⟨a, _ | ⟨b, _ | ⟨c, pre⟩⟩⟩
  · rfl
  · simp_all
  · simp at hsplit
  · simp at hsplit

/-- A cache that is on for the third of three steps computes that step instead of reusing the
    second. -/
theorem runPlan_recomputes_third_step :
    ∃ p : Plan Unit ℚ, compose [.technique (technique (some (Schedule.atSteps [2] true false)) 0)]
        { name := "model", capabilities := ∅ } 64 = .ok p ∧
      runPlan p () ⟨Dict.empty, 0⟩ (inputs [(0, ""), (1, ""), (2, "")] (fun step => step))
        = [(0, true), (1, true), (2, true)] ∧
      intended (Schedule.atSteps [2] true false) 0 []
          (inputs [(0, ""), (1, ""), (2, "")] (fun step => (step : ℚ)))
        = [(0, true), (1, true), (1, false)] := by
  refine ⟨_, rfl, rfl, rfl⟩

end StepCache
