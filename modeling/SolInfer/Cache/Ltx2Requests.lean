import SolInfer.Cache.Ltx2Pab
import SolInfer.Lib.Provenance
import SolInfer.Cache.Residual.Coordinators

set_option autoImplicit false

/-! # Requests of LTX-2

One transformer serves one request after another. A request makes its calls for the steps of the first
stage and possibly of the second one, with any number of passes for each step. The coordinators are not
told where a request begins; the pipeline may reset them in between. -/

namespace Ltx2

variable {H F V : Type}

/-! ## The TeaCache -/

namespace TeaCache

open Residual

/-- What happens to the coordinator. -/
inductive Event (H : Type) where
  | call (request : Nat) (x : Call H)
  | reset

structure Served (H F : Type) where
  request : Nat
  answer : Answer Key (H × H) (List F) F
deriving DecidableEq, Repr

def Served.access (r : Served H F) : Provenance.Access Nat Key (H × H) where
  tag := r.request
  key := r.answer.record.visit.key
  returned := r.answer.record.verdict.replayed
  stored := if r.answer.record.isHit then none else some r.answer.record.visit.residual

variable [Add H] [Sub H] [Add F] [LE F] [DecidableLE F] [OfScientific F]

def serve (ops : TensorOps H F) (s : Coordinator H F × List (Served H F)) :
    Event H → Option (Coordinator H F × List (Served H F))
  | .call request x =>
    let (answer, c) := forward ops s.1 x
    some (c, ⟨request, answer⟩ :: s.2)
  | .reset => some (s.1.reset, s.2)

/-- A request begins with step 0 of the first stage, and not right after another call of that step. -/
def Admitted (s : Coordinator H F × List (Served H F)) : Event H → Prop
  | .call request x => ∀ last ∈ s.2.head?, last.request ≠ request →
      x.position = ⟨"stage1", 0⟩ ∧ s.1.lastStageStep ≠ some ⟨"stage1", 0⟩
  | .reset => True

/-- A replayed residual was stored by the request itself. -/
def RequestLocal (r : Served H F) (earlier : List (Served H F)) : Prop :=
  Provenance.ReturnsOwn r.access (earlier.map Served.access)

def held (c : Coordinator H F) (key : Key) : Option (H × H) := (entryOf c.entries key).residual

end TeaCache

/-! ## Attention outputs -/

namespace Pab

/-- What happens to the coordinator. -/
inductive Event (V : Type) where
  | attention (request : Nat) (x : Call V)
  | beginStep (ctx : RuntimeContext)
  | reset
  | endRequest

structure Served (V : Type) where
  request : Nat
  ctx : RuntimeContext
  key : Key
  answer : Answer V
deriving DecidableEq, Repr

def Served.access (r : Served V) : Provenance.Access Nat Key (Entry V) :=
  ⟨r.request, r.key, r.answer.returned, r.answer.stored⟩

/-- Without a context the module is called and nothing else happens. -/
def serve (s : Coordinator V × List (Served V)) :
    Event V → Option (Coordinator V × List (Served V))
  | .attention request x =>
    let (answer, c) := forwardAttention s.1 x
    match s.1.contextOf x with
    | some ctx => some (c, ⟨request, ctx, key ctx x, answer⟩ :: s.2)
    | none => some (c, s.2)
  | .beginStep ctx => some (s.1.beginStep ctx, s.2)
  | .reset => some (s.1.reset, s.2)
  | .endRequest => some (s.1.endRequest, s.2)

/-- A request begins with step 0, and not right after another call of that step. -/
def Admitted (s : Coordinator V × List (Served V)) : Event V → Prop
  | .attention request x => ∀ ctx ∈ s.1.contextOf x, ∀ last ∈ s.2.head?, last.request ≠ request →
      ctx.currentStep = 0 ∧ s.1.lastStep ≠ some 0
  | _ => True

/-- A broadcast output was stored last under its key, by the request itself, less than a window ago. -/
def RequestLocal (config : Config) (r : Served V) (earlier : List (Served V)) : Prop :=
  ∀ entry, r.answer.returned = some entry →
    r.answer.output = entry.output ∧
    ∃ b ∈ earlier, Provenance.lastStore r.key (earlier.map Served.access) = some b.access ∧
      b.answer.stored = some entry ∧ b.request = r.request ∧ b.key = r.key ∧
      r.ctx.currentStep - b.ctx.currentStep < windowFor config r.ctx.stage r.key.attentionKind

end Pab

/-! ## No cache reuse across requests

Both coordinators hold only what the current request has put there, as long as they notice every
beginning of a request. They do unless the request before ended at the very step that the next one
begins with. -/

namespace TeaCache

open Residual

variable [Add H] [Sub H] [Add F] [LE F] [DecidableLE F] [OfScientific F]

omit [Add H] [Sub H] in
/-- A visit returns what is held under its key, or puts its own residual there. -/
theorem visit_does (policy : Policy F) (ops : FeatureOps (List F) F)
    (entries : Dict Key (Entry (H × H) (List F) F)) (v : Visit Key (H × H) (List F)) (request : Nat)
    (input output : H × H) :
    Provenance.Does (fun key => (entryOf entries key).residual)
      (fun key => (entryOf (visit policy ops entries v).2 key).residual) (v.clears = true)
      (Served.access ⟨request, (visit policy ops entries v).1, input, output⟩) := by
  -- what the visit finds is held already, unless the entries are forgotten
  have hfound {key : Key} {residual : H × H}
      (h : (entryOf (found entries v) key).residual = some residual) :
      ¬ v.clears = true ∧ (entryOf entries key).residual = some residual := by
    unfold found at h
    split at h
    · cases h
    next hclears => exact ⟨hclears, h⟩
  rcases tested_spec policy ops v (entryOf (found entries v) v.key) with
    ⟨-, stored, before, hhit⟩ | ⟨hnone, -⟩
  · have hreplayed : (visit policy ops entries v).1.verdict.replayed = some stored :=
      congrArg Verdict.replayed hhit.verdict
    have hstored : (Served.access ⟨request, (visit policy ops entries v).1, input, output⟩).stored =
        none := by
      simp [Served.access, Record.isHit, hreplayed]
    refine ⟨fun residual h => ?_, fun key residual h => .inr ?_⟩
    · obtain rfl : stored = residual := Option.some.inj (hreplayed.symm.trans h)
      exact hfound hhit.residual
    · rw [hstored]
      rw [entryOf_visit] at h
      have hheld : (entryOf (found entries v) key).residual = some residual := by
        split at h
        next hkey =>
          subst hkey
          rw [settled, hhit.verdict] at h
          rw [hhit.after] at h
          exact h
        · exact h
      exact ⟨(hfound hheld).1, (hfound hheld).2, by simp⟩
  · have hreplayed : (visit policy ops entries v).1.verdict.replayed = none := hnone
    have hstored : (Served.access ⟨request, (visit policy ops entries v).1, input, output⟩).stored =
        some v.residual := by
      simp only [Served.access, Record.isHit, hreplayed, Option.isSome_none, Bool.false_eq_true, if_false]
      rfl
    refine ⟨fun residual h => absurd (hreplayed.symm.trans h) (by simp), fun key residual h => ?_⟩
    rw [hstored]
    rw [entryOf_visit] at h
    split at h
    next hkey =>
      rw [settled, hnone] at h
      exact .inl ⟨hkey, h⟩
    next hkey =>
      exact .inr ⟨(hfound h).1, (hfound h).2, fun hand => hkey hand.1⟩

/-- A call either starts over or finds the entries as they were. -/
theorem forward_does (ops : TensorOps H F) (c : Coordinator H F) (x : Call H) (request : Nat) :
    Provenance.Does (held c) (held (forward ops c x).2) (startsOver c x.position = true)
      (Served.access ⟨request, (forward ops c x).1⟩) := by
  obtain ⟨hvisit, -⟩ := forwardPass_eq_visit (policy c.config) (featureOps ops) c.entries
    (visitOf ops c x) (x.hiddenStates, x.audioHiddenStates)
    (x.blocks (x.hiddenStates, x.audioHiddenStates))
  have hdoes := visit_does (policy c.config) (featureOps ops) c.entries (visitOf ops c x) request
    (forward ops c x).1.input (forward ops c x).1.output
  rw [hvisit] at hdoes
  rw [forward_eq_forwardPass] at hdoes ⊢
  exact hdoes

/-- What holds between the coordinator and the calls it has served. -/
structure Local (c : Coordinator H F) (history : List (Served H F)) : Prop where
  owned : Provenance.Owned (held c) (history.map Served.access)
  /-- After a reset nothing is held. -/
  reset : c.lastStageStep = none → ∀ key, held c key = none

theorem serve_local (ops : TensorOps H F) {c : Coordinator H F} {history : List (Served H F)}
    (h : Local c history) {request : Nat} {x : Call H}
    (hadmitted : Admitted (c, history) (.call request x)) :
    RequestLocal ⟨request, (forward ops c x).1⟩ history ∧
      Local (forward ops c x).2 (⟨request, (forward ops c x).1⟩ :: history) := by
  have hnew : ∀ last ∈ history.head?, last.request ≠ request →
      startsOver c x.position = true ∨ ∀ key, held c key = none := by
    intro last hhead hrequest
    obtain ⟨hposition, hlast⟩ := hadmitted last hhead hrequest
    cases hstep : c.lastStageStep with
    | none => exact .inr (h.reset hstep)
    | some position =>
      rw [hstep, ne_eq, Option.some.injEq] at hlast
      exact .inl (by simp [startsOver, hstep, hposition, hlast])
  obtain ⟨hlocal, howned⟩ := h.owned.step (forward_does ops c x request) hnew
  refine ⟨hlocal, howned, fun hnone => ?_⟩
  rw [forward_eq_forwardPass] at hnone
  cases hnone

end TeaCache

namespace Pab

/-- What a call gives and leaves. -/
structure Attends (c : Coordinator V) (ctx : RuntimeContext) (x : Call V) (answer : Answer V)
    (c' : Coordinator V) : Prop where
  config : c'.config = c.config
  lastStep : c'.lastStep = c.lastStep
  returned : ∀ entry, answer.returned = some entry → answer.output = entry.output ∧
    c.cache.get? (key ctx x) = some entry ∧ ctx.currentStep - entry.sourceStep < entry.window
  stored : ∀ entry, answer.stored = some entry → entry.sourceStep = ctx.currentStep ∧
    entry.window = windowFor c.config ctx.stage x.attentionKind
  cache : ∀ k entry, c'.cache.get? k = some entry → (key ctx x = k ∧ answer.stored = some entry) ∨
    (c.cache.get? k = some entry ∧ ¬ (key ctx x = k ∧ answer.stored.isSome = true))

theorem attends_attend (c : Coordinator V) (ctx : RuntimeContext) (x : Call V) :
    Attends c ctx x (attend c ctx x).1 (attend c ctx x).2 := by
  have hcomputed (entry : Entry V)
      (h : entry = ⟨x.attention, ctx.currentStep, windowFor c.config ctx.stage x.attentionKind⟩) :
      Attends c ctx x ⟨x.attention, none, some entry⟩
        { c with cache := c.cache.set (key ctx x) entry } := by
    refine ⟨rfl, rfl, by simp, ?_, fun k e he => ?_⟩
    · rintro e ⟨⟩
      rw [h]
      exact ⟨rfl, rfl⟩
    · rw [Dict.get?_set] at he
      split at he
      next hk => exact .inl ⟨hk, he⟩
      next hk => exact .inr ⟨he, fun hand => hk hand.1⟩
  unfold attend
  split
  · exact ⟨rfl, rfl, by simp, by simp, fun k e he => .inr ⟨he, by simp⟩⟩
  · simp only
    split
    next held hheld =>
      split
      next hwindow =>
        refine ⟨rfl, rfl, ?_, by simp, fun k e he => .inr ⟨he, by simp⟩⟩
        rintro e ⟨⟩
        exact ⟨rfl, hheld, hwindow⟩
      · exact hcomputed _ rfl
    · exact hcomputed _ rfl

theorem attend_does (c : Coordinator V) (ctx : RuntimeContext) (x : Call V) (request : Nat) :
    Provenance.Does c.cache.get? (attend (c.enter ctx) ctx x).2.cache.get? (startsOver c ctx = true)
      (Served.access ⟨request, ctx, key ctx x, (attend (c.enter ctx) ctx x).1⟩) := by
  have hentered {k : Key} {entry : Entry V} (h : (c.enter ctx).cache.get? k = some entry) :
      ¬ startsOver c ctx = true ∧ c.cache.get? k = some entry := by
    simp only [Coordinator.enter] at h
    split at h
    · cases h
    next hover => exact ⟨hover, h⟩
  have hattends := attends_attend (c.enter ctx) ctx x
  refine ⟨fun e he => hentered (hattends.returned e he).2.1, fun k e he => ?_⟩
  rcases hattends.cache k e he with hstored | ⟨hheld, hnot⟩
  · exact .inl hstored
  · exact .inr ⟨(hentered hheld).1, (hentered hheld).2, hnot⟩

structure Local (config : Config) (c : Coordinator V) (history : List (Served V)) : Prop where
  unchanged : c.config = config
  owned : Provenance.Owned c.cache.get? (history.map Served.access)
  /-- After a reset nothing is held. -/
  reset : c.lastStep = none → ∀ key, c.cache.get? key = none
  /-- Every stored entry carries the step and the window of its call. -/
  stamped : ∀ b ∈ history, ∀ entry, b.answer.stored = some entry →
    entry.sourceStep = b.ctx.currentStep ∧ entry.window = windowFor config b.ctx.stage b.key.attentionKind
  stages : ∀ b ∈ history, b.key.stage = b.ctx.stage

variable {history : List (Served V)} {config : Config} {c : Coordinator V}

theorem exists_of_lastStore {k : Key} {a : Provenance.Access Nat Key (Entry V)}
    (h : Provenance.lastStore k (history.map Served.access) = some a) :
    ∃ b ∈ history, b.access = a ∧ b.key = k := by
  have hmem := List.mem_of_find?_eq_some h
  have hkey := List.find?_some h
  obtain ⟨b, hb, rfl⟩ := List.mem_map.1 hmem
  simp only [Bool.and_eq_true, decide_eq_true_eq] at hkey
  exact ⟨b, hb, rfl, hkey.1⟩

theorem Local.mono {c' : Coordinator V}
    (h : Local config c history) (hconfig : c'.config = c.config) (hcache : c'.cache = c.cache)
    (hlast : c'.lastStep = c.lastStep) : Local config c' history :=
  ⟨hconfig.trans h.unchanged, hcache ▸ h.owned, fun hnone => hcache ▸ h.reset (hlast ▸ hnone),
    h.stamped, h.stages⟩

theorem Local.reset_local (h : Local config c history) : Local config c.reset history :=
  ⟨h.unchanged, Provenance.owned_of_none (fun _ => rfl) _, fun _ _ => rfl, h.stamped, h.stages⟩

theorem attend_local (h : Local config c history) {request : Nat} {ctx : RuntimeContext} {x : Call V}
    (hadmitted : ∀ last ∈ history.head?, last.request ≠ request →
      ctx.currentStep = 0 ∧ c.lastStep ≠ some 0) :
    RequestLocal config ⟨request, ctx, key ctx x, (attend (c.enter ctx) ctx x).1⟩ history ∧
      Local config (attend (c.enter ctx) ctx x).2
        (⟨request, ctx, key ctx x, (attend (c.enter ctx) ctx x).1⟩ :: history) := by
  have hnew : ∀ last ∈ history.head?, last.request ≠ request →
      startsOver c ctx = true ∨ ∀ key, c.cache.get? key = none := by
    intro last hhead hrequest
    obtain ⟨hstep, hlast⟩ := hadmitted last hhead hrequest
    cases hlastStep : c.lastStep with
    | none => exact .inr (h.reset hlastStep)
    | some step =>
      rw [hlastStep, ne_eq, Option.some.injEq] at hlast
      exact .inl (by simp [startsOver, hstep, hlastStep, hlast])
  obtain ⟨hreturns, howned⟩ := h.owned.step (attend_does c ctx x request) hnew
  have hattends := attends_attend (c.enter ctx) ctx x
  refine ⟨fun entry hentry => ?_, hattends.config.trans h.unchanged, howned, ?_, ?_, ?_⟩
  · obtain ⟨a, ha, hstored, htag⟩ := hreturns entry hentry
    obtain ⟨b, hb, rfl, hkey⟩ := exists_of_lastStore ha
    obtain ⟨hstep, hwindow⟩ := h.stamped b hb entry hstored
    obtain ⟨houtput, -, hlt⟩ := hattends.returned entry hentry
    refine ⟨houtput, b, hb, ha, hstored, htag, hkey, ?_⟩
    have hstage : b.ctx.stage = ctx.stage := by
      rw [← h.stages b hb, hkey]
      rfl
    have hkind : b.key.attentionKind = x.attentionKind := by rw [hkey]; rfl
    rw [hstep, hwindow, hstage, hkind] at hlt
    exact hlt
  · intro hnone
    rw [hattends.lastStep] at hnone
    cases hnone
  · intro b hb entry hstored
    rcases List.mem_cons.1 hb with rfl | hb
    · obtain ⟨hstep, hwindow⟩ := hattends.stored entry hstored
      refine ⟨hstep, hwindow.trans ?_⟩
      rw [← h.unchanged]
      rfl
    · exact h.stamped b hb entry hstored
  · intro b hb
    rcases List.mem_cons.1 hb with rfl | hb
    · rfl
    · exact h.stages b hb

end Pab

/-! ## Runs -/

theorem TeaCache.always_requestLocal [Add H] [Sub H] [Add F] [LE F] [DecidableLE F] [OfScientific F]
    (ops : TeaCache.TensorOps H F) (config : TeaCache.Config F)
    {s : TeaCache.Coordinator H F × List (TeaCache.Served H F)}
    (h : Run.Reaches (TeaCache.serve ops) TeaCache.Admitted (⟨config, .empty, none⟩, []) s) :
    History.Always TeaCache.RequestLocal s.2 := by
  refine (h.invariant (I := fun (s : TeaCache.Coordinator H F × List (TeaCache.Served H F)) =>
      TeaCache.Local s.1 s.2 ∧ History.Always TeaCache.RequestLocal s.2)
    ⟨⟨Provenance.owned_of_none (fun _ => rfl) _, fun _ _ => rfl⟩, trivial⟩ ?_).2
  rintro ⟨c, history⟩ e s' ⟨hlocal, halways⟩ hadmitted hstep
  cases e with
  | call request x =>
    cases hstep
    obtain ⟨hrequest, hlocal'⟩ := TeaCache.serve_local ops hlocal hadmitted
    exact ⟨hlocal', hrequest, halways⟩
  | reset =>
    cases hstep
    exact ⟨⟨Provenance.owned_of_none (fun _ => rfl) _, fun _ _ => rfl⟩, halways⟩

theorem Pab.always_requestLocal (config : Pab.Config) {s : Pab.Coordinator V × List (Pab.Served V)}
    (h : Run.Reaches Pab.serve Pab.Admitted ({ config := config }, []) s) :
    History.Always (Pab.RequestLocal config) s.2 := by
  refine (h.invariant (I := fun (s : Pab.Coordinator V × List (Pab.Served V)) =>
      Pab.Local config s.1 s.2 ∧ History.Always (Pab.RequestLocal config) s.2)
    ⟨⟨rfl, Provenance.owned_of_none (fun _ => rfl) _, fun _ _ => rfl, by simp, by simp⟩, trivial⟩
    ?_).2
  rintro ⟨c, history⟩ e s' ⟨hlocal, halways⟩ hadmitted hstep
  cases e with
  | attention request x =>
    simp only [Pab.serve, Pab.forwardAttention] at hstep
    cases hctx : c.contextOf x with
    | none =>
      simp only [hctx] at hstep
      cases hstep
      exact ⟨hlocal, halways⟩
    | some ctx =>
      simp only [hctx] at hstep
      cases hstep
      obtain ⟨hrequest, hlocal'⟩ := Pab.attend_local hlocal (hadmitted ctx hctx)
      exact ⟨hlocal', hrequest, halways⟩
  | beginStep ctx =>
    cases hstep
    exact ⟨hlocal.mono rfl rfl rfl, halways⟩
  | reset =>
    cases hstep
    exact ⟨hlocal.reset_local, halways⟩
  | endRequest =>
    cases hstep
    exact ⟨hlocal.reset_local.mono rfl rfl rfl, halways⟩

/-- **No cache reuse across requests**: in every run in which no request begins right after a call of
    the step it begins with, the TeaCache replays only residuals of the same request, and an attention
    output is broadcast only within its request and its window. -/
theorem caches_requestLocal [Add H] [Sub H] [Add F] [LE F] [DecidableLE F] [OfScientific F] :
    (∀ (ops : TeaCache.TensorOps H F) (config : TeaCache.Config F)
        (s : TeaCache.Coordinator H F × List (TeaCache.Served H F)),
      Run.Reaches (TeaCache.serve ops) TeaCache.Admitted (⟨config, .empty, none⟩, []) s →
      History.Always TeaCache.RequestLocal s.2) ∧
    (∀ (config : Pab.Config) (s : Pab.Coordinator V × List (Pab.Served V)),
      Run.Reaches Pab.serve Pab.Admitted ({ config := config }, []) s →
      History.Always (Pab.RequestLocal config) s.2) :=
  ⟨fun ops config _ h => TeaCache.always_requestLocal ops config h,
    fun config _ h => Pab.always_requestLocal config h⟩

/-! ## Requests of one and of two steps -/

def eagerConfig : TeaCache.Config ℚ := { startStep := 0 }

def alwaysActive : Pab.Config := { activeStartFraction := none, activeEndFraction := none }

/-- A call of the first attention module of a model of ten steps. -/
def attentionCall (step : Int) (output : ℚ) : Pab.Call ℚ :=
  ⟨some ⟨some ⟨some "stage1", some 10⟩, none, some step⟩, 0, .videoSelf, none, false, false, output⟩

/-- A request of two steps reuses its own values, and the next one starts over. -/
theorem caches_requestLocal_two_steps :
    (∃ s, Run.exec (TeaCache.serve Residual.ltx2Numbers) (⟨eagerConfig, .empty, none⟩, [])
        [.call 1 (Residual.ltx2Call "stage1" 0 100 (1, 1)),
          .call 1 (Residual.ltx2Call "stage1" 1 101 (2, 2)),
          .call 2 (Residual.ltx2Call "stage1" 0 100 (3, 3))] = some s ∧
      s.2.map (fun r => r.answer.record.isHit) = [false, true, false] ∧
      History.Always TeaCache.RequestLocal s.2) ∧
    (∃ s, Run.exec Pab.serve ({ config := alwaysActive }, [])
        [.attention 1 (attentionCall 0 1), .attention 1 (attentionCall 1 2),
          .attention 2 (attentionCall 0 3)] = some s ∧
      s.2.map (fun r => r.answer.output) = [3, 1, 1] ∧
      History.Always (Pab.RequestLocal alwaysActive) s.2) := by
  refine ⟨⟨_, rfl, by decide +kernel, (caches_requestLocal (V := ℚ)).1 Residual.ltx2Numbers eagerConfig _
      (.step (e := .call 2 (Residual.ltx2Call "stage1" 0 100 (3, 3)))
        (.step (e := .call 1 (Residual.ltx2Call "stage1" 1 101 (2, 2)))
          (.step (e := .call 1 (Residual.ltx2Call "stage1" 0 100 (1, 1))) .refl ?_ rfl) ?_ rfl) ?_ rfl)⟩,
    ⟨_, rfl, by decide +kernel, (caches_requestLocal (H := ℚ) (F := ℚ)).2 alwaysActive _
      (.step (e := .attention 2 (attentionCall 0 3)) (.step (e := .attention 1 (attentionCall 1 2))
        (.step (e := .attention 1 (attentionCall 0 1)) .refl ?_ rfl) ?_ rfl) ?_ rfl)⟩⟩
  · exact fun last hlast => nomatch hlast
  · rintro last ⟨⟩ hne
    exact absurd rfl hne
  · exact fun last hlast hne => ⟨rfl, by decide +kernel⟩
  · exact fun ctx hctx last hlast => nomatch hlast
  · rintro ctx hctx last ⟨⟩ hne
    exact absurd rfl hne
  · rintro ctx ⟨⟩ last hlast hne
    exact ⟨rfl, by decide +kernel⟩

def stage1Key : TeaCache.Key :=
  ⟨"stage1", "default", [1], [1], "float32", "float32", [], [], false, false, false⟩

def teaCacheServed (request : Nat) (residual : ℚ × ℚ) (verdict : Residual.Verdict (ℚ × ℚ) ℚ) :
    TeaCache.Served ℚ ℚ :=
  ⟨request, ⟨⟨⟨stage1Key, 0, true, [100, 100], residual, false⟩, verdict⟩, (0, 0), (1, 1)⟩⟩

def attentionServed (request : Nat) (returned stored : Option (Pab.Entry ℚ)) : Pab.Served ℚ :=
  ⟨request, ⟨0, 10, "stage1", "default", "default"⟩,
    ⟨"stage1", "default", "default", 0, .videoSelf, none⟩, ⟨1, returned, stored⟩⟩

/-- After a request of one step, both caches answer the next request with what the first one stored. -/
theorem caches_not_requestLocal :
    (∃ s, Run.exec (TeaCache.serve Residual.ltx2Numbers) (⟨eagerConfig, .empty, none⟩, [])
        [.call 1 (Residual.ltx2Call "stage1" 0 100 (1, 1)),
          .call 2 (Residual.ltx2Call "stage1" 0 100 (2, 2))] = some s ∧
      s.2 = [teaCacheServed 2 (2, 2) ⟨.cacheHit, some (1, 1), some 0⟩,
        teaCacheServed 1 (1, 1) { reason := .missingCache }] ∧
      ¬ History.Always TeaCache.RequestLocal s.2) ∧
    (∃ s, Run.exec Pab.serve ({ config := alwaysActive }, [])
        [.attention 1 (attentionCall 0 1), .attention 2 (attentionCall 0 2)] = some s ∧
      s.2 = [attentionServed 2 (some ⟨1, 0, 2⟩) none, attentionServed 1 none (some ⟨1, 0, 2⟩)] ∧
      ¬ History.Always (Pab.RequestLocal alwaysActive) s.2) := by
  constructor
  · obtain ⟨s, hexec, hhistory⟩ : ∃ s, Run.exec (TeaCache.serve Residual.ltx2Numbers)
        (⟨eagerConfig, .empty, none⟩, [])
        [.call 1 (Residual.ltx2Call "stage1" 0 100 (1, 1)),
          .call 2 (Residual.ltx2Call "stage1" 0 100 (2, 2))] = some s ∧
        s.2 = [teaCacheServed 2 (2, 2) ⟨.cacheHit, some (1, 1), some 0⟩,
          teaCacheServed 1 (1, 1) { reason := .missingCache }] :=
      ⟨_, rfl, by decide +kernel⟩
    refine ⟨s, hexec, hhistory, ?_⟩
    rw [hhistory]
    rintro ⟨hlocal, -⟩
    obtain ⟨b, hb, -, htag⟩ := hlocal (1, 1) rfl
    cases hb
    cases htag
  · obtain ⟨s, hexec, hhistory⟩ : ∃ s, Run.exec Pab.serve ({ config := alwaysActive }, [])
        [.attention 1 (attentionCall 0 1), .attention 2 (attentionCall 0 2)] = some s ∧
        s.2 = [attentionServed 2 (some ⟨1, 0, 2⟩) none, attentionServed 1 none (some ⟨1, 0, 2⟩)] :=
      ⟨_, rfl, by decide +kernel⟩
    refine ⟨s, hexec, hhistory, ?_⟩
    rw [hhistory]
    rintro ⟨hlocal, -⟩
    obtain ⟨-, b, hb, -, -, hrequest, -⟩ := hlocal ⟨1, 0, 2⟩ rfl
    obtain rfl := List.mem_singleton.1 hb
    cases hrequest

end Ltx2
