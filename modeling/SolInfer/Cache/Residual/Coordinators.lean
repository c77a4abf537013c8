import SolInfer.Cache.Cosmos3TeaCache
import SolInfer.Cache.Ltx2TeaCache

set_option autoImplicit false

/-! # Both coordinators measure since the last compute

A coordinator is faithful in every run in which no call forgets a distance. Only the threshold sets the
accumulated distance back, so a call that is computed for another reason does forget it. -/

open Ltx2.TeaCache

namespace Residual

variable {H F : Type} [Add H] [Sub H] [Add F] [Mul F] [LT F] [LE F] [DecidableLT F] [DecidableLE F]
  [OfScientific F]

theorem cosmos3_visits (ops : Cosmos3.TensorOps H F) {config : Cosmos3.Config F}
    {c : Cosmos3.Coordinator H F} (hc : c.config = config) (x : Cosmos3.Call H) :
    Visits (Cosmos3.policy config) (Cosmos3.featureOps ops config) Cosmos3.Coordinator.entries
        (fun _ => Cosmos3.visitOf ops config) (Cosmos3.forward ops) c x ∧
      (Cosmos3.forward ops c x).2.config = config := by
  subst hc
  obtain ⟨hvisit, houtput⟩ := forwardPass_eq_visit (Cosmos3.policy c.config)
    (Cosmos3.featureOps ops c.config) c.entries (Cosmos3.visitOf ops c.config x) x.hiddenGen
    (x.layers x.hiddenGen)
  have hforward := Cosmos3.forward_eq_forwardPass ops c x
  refine ⟨⟨?_, ?_⟩, by rw [hforward]⟩
  · rw [hvisit, hforward]
  · rw [hforward]
    exact houtput

omit [Mul F] [LT F] [DecidableLT F] in
theorem ltx2_visits (ops : Ltx2.TeaCache.TensorOps H F) {config : Ltx2.TeaCache.Config F}
    {c : Ltx2.TeaCache.Coordinator H F} (hc : c.config = config) (x : Ltx2.TeaCache.Call H) :
    Visits (policy config) (featureOps ops)
        Ltx2.TeaCache.Coordinator.entries (visitOf ops) (forward ops) c x ∧
      (forward ops c x).2.config = config := by
  subst hc
  obtain ⟨hvisit, houtput⟩ := forwardPass_eq_visit (policy c.config)
    (featureOps ops) c.entries (visitOf ops c x)
    (x.hiddenStates, x.audioHiddenStates) (x.blocks (x.hiddenStates, x.audioHiddenStates))
  have hforward := forward_eq_forwardPass ops c x
  refine ⟨⟨?_, ?_⟩, by rw [hforward]⟩
  · rw [hvisit, hforward]
  · rw [hforward]
    exact houtput

/-- **The accumulators of both coordinators measure the distance since the last compute** in every run
    in which no computed call leaves a distance behind. -/
theorem coordinators_faithful :
    (∀ (ops : Cosmos3.TensorOps H F) (config : Cosmos3.Config F)
        (s : Cosmos3.Coordinator H F × List (Answer Cosmos3.Key H H F)),
      Run.Reaches (History.log (Cosmos3.forward ops))
        (fun s x => ¬ Forgets (Cosmos3.policy config) (Cosmos3.featureOps ops config) s.1.entries
          (Cosmos3.visitOf ops config x)) (⟨config, .empty⟩, []) s →
      History.Always (Faithful (Cosmos3.policy config) (Cosmos3.featureOps ops config)) s.2) ∧
    (∀ (ops : Ltx2.TeaCache.TensorOps H F) (config : Ltx2.TeaCache.Config F)
        (s : Ltx2.TeaCache.Coordinator H F × List (Answer Ltx2.TeaCache.Key (H × H) (List F) F)),
      Run.Reaches (History.log (forward ops))
        (fun s x => ¬ Forgets (policy config) (featureOps ops) s.1.entries
          (visitOf ops s.1 x)) (⟨config, .empty, none⟩, []) s →
      History.Always (Faithful (policy config) (featureOps ops)) s.2) := by
  refine ⟨fun ops config s h => ?_, fun ops config s h => ?_⟩
  · exact faithful_of_reaches (fun c x hc => cosmos3_visits ops hc x) rfl rfl h
  · exact faithful_of_reaches (fun c x hc => ltx2_visits ops hc x) rfl rfl h

/-! ## Two runs -/

def cosmos3Numbers : Cosmos3.TensorOps ℚ ℚ where
  shape := fun _ => [1]
  dtype := fun _ => "float32"
  relL1 := fun a b => |a - b| / max |b| 0.000001

def cosmos3Call (step : Int) (hidden output : ℚ) : Cosmos3.Call ℚ :=
  ⟨hidden, "cond", step, some 50, false, false, fun _ => output⟩

def ltx2Numbers : Ltx2.TeaCache.TensorOps ℚ ℚ where
  shape := fun _ => [1]
  dtype := fun _ => "float32"
  flatten := fun a => [a]
  relL1 := fun a b => |a.sum - b.sum| / max |b.sum| 0.000001

def ltx2Call (stage : String) (step : Int) (temb : ℚ) (output : ℚ × ℚ) : Ltx2.TeaCache.Call ℚ where
  context := some ⟨some ⟨some stage, none⟩, none, some step⟩
  hiddenStates := 0
  audioHiddenStates := 0
  temb := temb
  tembAudio := temb
  blocks := fun _ => output

def cosmos3Default : Cosmos3.Config ℚ := {}

def ltx2Default : Ltx2.TeaCache.Config ℚ := {}

/-- With the default configurations, each coordinator answers the second of two calls. -/
theorem coordinators_faithful_two_calls :
    (∃ s, Run.exec (History.log (Cosmos3.forward cosmos3Numbers)) (⟨cosmos3Default, .empty⟩, [])
        [cosmos3Call 5 100 7, cosmos3Call 6 103 8] = some s ∧
      s.2.map (fun r => (r.record.isHit, r.output)) = [(true, 10), (false, 7)] ∧
      History.Always (Faithful (Cosmos3.policy cosmos3Default)
        (Cosmos3.featureOps cosmos3Numbers cosmos3Default)) s.2) ∧
    (∃ s, Run.exec (History.log (forward ltx2Numbers)) (⟨ltx2Default, .empty, none⟩, [])
        [ltx2Call "stage1" 6 100 (1, 2), ltx2Call "stage1" 7 103 (3, 4)] = some s ∧
      s.2.map (fun r => (r.record.isHit, r.output)) = [(true, (1, 2)), (false, (1, 2))] ∧
      History.Always (Faithful (policy ltx2Default)
        (featureOps ltx2Numbers)) s.2) := by
  refine ⟨⟨_, rfl, by decide +kernel, coordinators_faithful.1 cosmos3Numbers cosmos3Default _
      (.step (e := cosmos3Call 6 103 8) (.step (e := cosmos3Call 5 100 7) .refl ?_ rfl) ?_ rfl)⟩,
    ⟨_, rfl, by decide +kernel, coordinators_faithful.2 ltx2Numbers ltx2Default _
      (.step (e := ltx2Call "stage1" 7 103 (3, 4))
        (.step (e := ltx2Call "stage1" 6 100 (1, 2)) .refl ?_ rfl) ?_ rfl)⟩⟩
  -- neither call finds a distance in its entry
  all_goals exact fun h => h.1 (by decide +kernel)

def cosmos3Answer (step : Int) (hidden : ℚ) (verdict : Verdict ℚ ℚ) : Answer Cosmos3.Key ℚ ℚ ℚ :=
  ⟨⟨⟨⟨"cond", [1], "float32", false, false⟩, step, true, hidden, 0, false⟩, verdict⟩, hidden, hidden⟩

/-- Four calls of Cosmos3 with the default configuration: a compute, a hit, a compute because of the
    limit on hits, and a hit. The last one is compared with the distances of both hits. -/
theorem cosmos3_not_faithful :
    ∃ s, Run.Reaches (History.log (Cosmos3.forward cosmos3Numbers)) (fun _ _ => True)
        (⟨cosmos3Default, .empty⟩, []) s ∧
      s.2 = [cosmos3Answer 8 100.5 ⟨.cacheHit, some 0, some 0.035⟩,
        cosmos3Answer 7 100 { reason := .continuousHitCap },
        cosmos3Answer 6 103 ⟨.cacheHit, some 0, some 0.03⟩,
        cosmos3Answer 5 100 { reason := .missingCache }] ∧
      ¬ History.Always (Faithful (Cosmos3.policy cosmos3Default)
        (Cosmos3.featureOps cosmos3Numbers cosmos3Default)) s.2 := by
  obtain ⟨s, hexec, hhistory⟩ : ∃ s, Run.exec (History.log (Cosmos3.forward cosmos3Numbers))
      (⟨cosmos3Default, .empty⟩, []) [cosmos3Call 5 100 100, cosmos3Call 6 103 103,
        cosmos3Call 7 100 100, cosmos3Call 8 100.5 100.5] = some s ∧
      s.2 = [cosmos3Answer 8 100.5 ⟨.cacheHit, some 0, some 0.035⟩,
        cosmos3Answer 7 100 { reason := .continuousHitCap },
        cosmos3Answer 6 103 ⟨.cacheHit, some 0, some 0.03⟩,
        cosmos3Answer 5 100 { reason := .missingCache }] :=
    ⟨_, rfl, by decide +kernel⟩
  refine ⟨s, Run.reaches_of_exec hexec, hhistory, ?_⟩
  rw [hhistory]
  rintro ⟨hfaithful, -⟩
  obtain ⟨c, hc, hmeasured, -⟩ := hfaithful rfl
  -- no hit lies between the last call and the third one, which was computed
  cases hc
  exact absurd hmeasured.accumulated (by decide +kernel)

end Residual
