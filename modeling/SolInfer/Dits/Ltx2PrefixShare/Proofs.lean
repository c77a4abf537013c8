import SolInfer.Dits.Ltx2PrefixShare

set_option autoImplicit false

/-! # Correctness of the shared prefix

Up to the expansion the full batch is the batch of the rows kept, with the conditional row copied to the
perturbed one. A row-wise block keeps this, since it treats every row of the full batch like the kept row
it is copied from: they see the same inputs and the same states of the attentions. -/

open List

namespace Ltx2

namespace PrefixShare

variable {R F : Type}
variable {env : Env} {plan : Plan} {call : Call R} {blocks : List (Block R)}
variable {configs : List PerturbationConfig} {blockIndices : List Int} {n k : Nat} {full : LoopState R}

/-! ## The indices of a plan -/

/-- The batch sizes that a plan is made for. -/
def Shareable (n : Nat) : Prop := n = 3 ∨ n = 4

private theorem keepIndices_three : keepIndices 3 = [0, 1] := by decide

private theorem keepIndices_four : keepIndices 4 = [0, 1, 3] := by decide

private theorem expandIndices_three : expandIndices 3 = [0, 1, 0] := by decide

private theorem expandIndices_four : expandIndices 4 = [0, 1, 0, 2] := by decide

theorem keepIndices_inRange (n : Nat) : Batch.InRange (keepIndices n) n := by
  intro i hi
  exact mem_range.1 (mem_filter.1 hi).1

theorem length_keepIndices (hn : Shareable n) : (keepIndices n).length = n - 1 := by
  rcases hn with rfl | rfl <;> decide

theorem length_expandIndices (n : Nat) : (expandIndices n).length = n := by
  simp [expandIndices]

theorem expandIndices_inRange (hn : Shareable n) : Batch.InRange (expandIndices n) (n - 1) := by
  rcases hn with rfl | rfl
  · simp [Batch.InRange, expandIndices_three]
  · simp [Batch.InRange, expandIndices_four]

theorem origin_of_expand {i j : Nat} (hn : Shareable n) (h : (expandIndices n)[j]? = some i) :
    ∃ k, (keepIndices n)[i]? = some k ∧ (k = j ∨ (k = condIdx ∧ j = perturbedIdx)) := by
  have hj : j < n := by
    have := (List.getElem?_eq_some_iff.1 h).1
    rwa [length_expandIndices] at this
  rcases hn with rfl | rfl
  · rw [expandIndices_three] at h
    rw [keepIndices_three]
    interval_cases j <;> cases h <;> simp [condIdx, perturbedIdx]
  · rw [expandIndices_four] at h
    rw [keepIndices_four]
    interval_cases j <;> cases h <;> simp [condIdx, perturbedIdx]

theorem length_select_keep {α : Type} {rows : List α} (hn : Shareable n)
    (hlength : rows.length = n) : (Batch.select (keepIndices n) rows).length = n - 1 := by
  subst hlength
  rw [Batch.length_select (keepIndices_inRange _), length_keepIndices hn]

theorem select_expand_keep {α : Type} {rows : List α} (hn : Shareable n)
    (hlength : rows.length = n) (hagree : rows[condIdx]? = rows[perturbedIdx]?) :
    Batch.select (expandIndices n) (Batch.select (keepIndices n) rows) = rows := by
  have hkeep : Batch.InRange (keepIndices n) rows.length := by
    rw [hlength]
    exact keepIndices_inRange n
  have hexpand : Batch.InRange (expandIndices n) (Batch.select (keepIndices n) rows).length := by
    rw [length_select_keep hn hlength]
    exact expandIndices_inRange hn
  refine ext_getElem? fun j => ?_
  rw [Batch.getElem?_select hexpand]
  cases hj : (expandIndices n)[j]? with
  | none =>
    have : n ≤ j := by simpa [length_expandIndices] using hj
    simp [hlength, this]
  | some i =>
    obtain ⟨k, hk, hkj⟩ := origin_of_expand hn hj
    rw [Option.bind_some, Batch.getElem?_select hkeep, hk, Option.bind_some]
    rcases hkj with rfl | ⟨rfl, rfl⟩
    · rfl
    · exact hagree

/-! ## The plan -/

/-- What the tests of a plan establish. -/
structure Admits (plan : Plan) (configs : List PerturbationConfig) (blockIndices : List Int)
    (n : Nat) : Prop where
  shareable : Shareable n
  length : configs.length = n
  keep : plan.keepIndices = keepIndices n
  expand : plan.expandIndices = expandIndices n
  first : plan.firstSkipBlock ∈ blockIndices
  cond : ∀ config, configs[condIdx]? = some config → ∀ b ∈ blockIndices, anyPerturbed config b = false
  perturbed : ∀ config, configs[perturbedIdx]? = some config →
    ∀ b ∈ blockIndices.takeWhile (fun b => b < plan.firstSkipBlock), anyPerturbed config b = false

theorem plan_admits {configs : Option (List PerturbationConfig)}
    (h : guidancePrefixSharePlan env configs blockIndices n = some plan) :
    ∃ cs, configs = some cs ∧ Admits plan cs blockIndices n := by
  unfold guidancePrefixSharePlan at h
  split at h
  · cases h
  next cs =>
    split at h
    · cases h
    next htest =>
      push Not at htest
      obtain ⟨_, _, hlength, hsize⟩ := htest
      split at h
      next cond perturbed hcond hperturbed =>
        unfold planFor at h
        split at h
        · cases h
        next hclean =>
          split at h
          · cases h
          · split at h
            · cases h
            next first _ =>
              split at h
              · cases h
              next hmem =>
                split at h
                · cases h
                · split at h
                  · cases h
                  next hbefore =>
                    cases h
                    refine ⟨cs, rfl, hsize, hlength.symm, rfl, rfl, not_not.1 hmem, ?_, ?_⟩
                    · intro config hconfig b hb
                      rw [hcond] at hconfig
                      cases hconfig
                      have := any_eq_false.1 (Bool.not_eq_true _ ▸ hclean) b hb
                      simpa using this
                    · intro config hconfig b hb
                      rw [hperturbed] at hconfig
                      cases hconfig
                      have := any_eq_false.1 (Bool.not_eq_true _ ▸ hbefore) b hb
                      simpa using this
      · cases h

/-! ## What a row sees -/

theorem Arg.row_of_length_ne_one {rows : List R} (h : rows.length ≠ 1) (i : Nat) :
    (Arg.tensor rows).row i = rows[i]? := by
  unfold Arg.row
  split
  next heq => cases heq
  next heq => cases heq; exact absurd rfl h
  next heq => cases heq; rfl

theorem Arg.row_index {i : Nat} (hn : Shareable n) {arg : Arg R} (hfits : arg.Fits n)
    (hk : (keepIndices n)[i]? = some k) :
    (arg.indexBatchDim (keepIndices n) n).row i = arg.row k := by
  have hn2 : n - 1 ≠ 1 ∧ n ≠ 1 := by rcases hn with rfl | rfl <;> decide
  cases arg with
  | other value => rfl
  | tensor rows =>
    rcases hfits with hlength | hlength
    · have hkeep : Batch.InRange (keepIndices n) rows.length := by
        rw [hlength]
        exact keepIndices_inRange n
      have hselect : (Batch.select (keepIndices n) rows).length ≠ 1 := by
        rw [length_select_keep hn hlength]
        exact hn2.1
      have hrows : rows.length ≠ 1 := by rw [hlength]; exact hn2.2
      rw [Arg.indexBatchDim, PrefixShare.indexBatchDim, if_neg (not_not.2 hlength),
        Arg.row_of_length_ne_one hselect, Arg.row_of_length_ne_one hrows,
        Batch.getElem?_select hkeep, hk, Option.bind_some]
    · obtain ⟨x, rfl⟩ := length_eq_one_iff.1 hlength
      have hne : ([x] : List R).length ≠ n := by rw [hlength]; exact hn2.2.symm
      rw [Arg.indexBatchDim, PrefixShare.indexBatchDim, if_pos hne]
      rfl

theorem Call.Fits.row_index (hfits : call.Fits) (hn : Shareable call.batchSize) {i : Nat}
    (hk : (keepIndices call.batchSize)[i]? = some k) :
    (call.inputs.index (keepIndices call.batchSize) call.batchSize).row i = call.inputs.row k := by
  unfold BlockInputs.row BlockInputs.index
  congr 1
  · funext name
    exact Arg.row_index hn (hfits.tensor name) hk
  · funext name
    cases hpe : call.inputs.rotary name with
    | none => simp only [hpe, Option.map_none]
    | some pe =>
      obtain ⟨hp, hq⟩ := hfits.rotary name pe hpe
      simp only [hpe, Option.map_some, Arg.row_index hn hp hk, Arg.row_index hn hq hk]

theorem Call.row_expand (hfits : call.Fits) (hagrees : call.Agrees) (hn : Shareable call.batchSize)
    {i j : Nat} (h : (expandIndices call.batchSize)[j]? = some i) :
    call.inputs.row j =
      (call.inputs.index (keepIndices call.batchSize) call.batchSize).row i := by
  obtain ⟨k, hk, hkj⟩ := origin_of_expand hn h
  rw [hfits.row_index hn hk]
  rcases hkj with rfl | ⟨rfl, rfl⟩
  · rfl
  · exact hagrees.inputs.symm

/-- The state of an attention, from which rows are perturbed. -/
def stateOf (perturbed : List Bool) : AttnState :=
  if ¬ perturbed.any id then ⟨none, false⟩
  else if perturbed.all id then ⟨none, true⟩
  else ⟨some (perturbed.map (fun p => if p then 0 else 1)), false⟩

theorem batchedPerturbationState_eq (configs : List PerturbationConfig) (key : PerturbationKey)
    (blockIdx : Int) :
    batchedPerturbationState configs key blockIdx =
      stateOf (configs.map (fun config => isPerturbed config key blockIdx)) := rfl

theorem stateOf_select {i j : Nat} (hn : Shareable n) {perturbed : List Bool}
    (hlength : perturbed.length = n) (hcond : perturbed[condIdx]? = some false)
    (hperturbed : perturbed[perturbedIdx]? = some false) (h : (expandIndices n)[j]? = some i) :
    (stateOf perturbed).row j = (stateOf (Batch.select (keepIndices n) perturbed)).row i := by
  have hj : j < n := by
    have := (List.getElem?_eq_some_iff.1 h).1
    rwa [length_expandIndices] at this
  rcases hn with rfl | rfl
  · obtain ⟨a, b, c, rfl⟩ := length_eq_three.1 hlength
    simp only [condIdx, perturbedIdx, getElem?_cons_zero, getElem?_cons_succ,
      Option.some.injEq] at hcond hperturbed
    subst hcond hperturbed
    interval_cases j <;> cases h <;> cases b <;> rfl
  · obtain ⟨a, b, c, d, rfl⟩ : ∃ a b c d, perturbed = [a, b, c, d] := by
      match perturbed, hlength with
      | [a, b, c, d], _ => exact ⟨a, b, c, d, rfl⟩
    simp only [condIdx, perturbedIdx, getElem?_cons_zero, getElem?_cons_succ,
      Option.some.injEq] at hcond hperturbed
    subst hcond hperturbed
    interval_cases j <;> cases h <;> cases b <;> cases d <;> rfl

theorem isPerturbed_of_anyPerturbed {config : PerturbationConfig} {b : Int}
    (h : anyPerturbed config b = false) (key : PerturbationKey) : isPerturbed config key b = false := by
  have hkey : key ∈ guidancePerturbationKeys := by cases key <;> decide
  simpa using any_eq_false.1 h key hkey

/-- Two of the configurations do not perturb the block. -/
structure Unperturbed (configs : List PerturbationConfig) (blockIdx : Int) : Prop where
  cond : ∀ config, configs[condIdx]? = some config → anyPerturbed config blockIdx = false
  perturbed : ∀ config, configs[perturbedIdx]? = some config → anyPerturbed config blockIdx = false

theorem Unperturbed.getElem? {b : Int}
    (h : ∀ config, configs[k]? = some config → anyPerturbed config b = false)
    (hk : k < configs.length) (key : PerturbationKey) :
    (configs.map (fun config => isPerturbed config key b))[k]? = some false := by
  rw [getElem?_map, getElem?_eq_getElem hk, Option.map_some]
  exact congrArg some (isPerturbed_of_anyPerturbed (h _ (getElem?_eq_getElem hk)) key)

theorem attnState_expand {i j : Nat} (hn : Shareable n)
    (hlength : configs.length = n) {blockIdx : Int} (hclean : Unperturbed configs blockIdx)
    (h : (expandIndices n)[j]? = some i) (key : PerturbationKey) :
    (attnState call (some configs) blockIdx key).row j =
      (attnState call (some (Batch.select (keepIndices n) configs)) blockIdx key).row i := by
  unfold attnState
  split
  · rfl
  · have hsize : 2 < configs.length := by rcases hn with rfl | rfl <;> omega
    dsimp only
    rw [batchedPerturbationState_eq, batchedPerturbationState_eq, ← Batch.select_map]
    refine stateOf_select hn (by rwa [length_map]) ?_ ?_ h
    · exact Unperturbed.getElem? hclean.cond (by simp only [condIdx]; omega) key
    · exact Unperturbed.getElem? hclean.perturbed hsize key

/-! ## The loop -/

/-- The full batch is the kept one with the conditional row copied to the perturbed one. -/
structure Shared (n : Nat) (full kept : Hidden R) : Prop where
  video : full.video = Batch.select (expandIndices n) kept.video
  audio : full.audio = Batch.select (expandIndices n) kept.audio
  videoLength : kept.video.length = n - 1
  audioLength : kept.audio.length = n - 1

theorem Block.length_run (block : Block R) (inputs : BlockInputs R)
    (states : PerturbationKey → AttnState) {h : Hidden R} (hvideo : h.video.length = n)
    (haudio : h.audio.length = n) :
    (block.run inputs states h).video.length = n ∧ (block.run inputs states h).audio.length = n := by
  simp [Block.run, hvideo, haudio]

/-- **A row-wise block keeps the rows shared**, if every row of the full batch sees what the kept row it
    is copied from sees. -/
theorem Shared.run (hn : Shareable n) {full kept : Hidden R} (h : Shared n full kept)
    (block : Block R) {inputs inputs' : BlockInputs R} {states states' : PerturbationKey → AttnState}
    (hinputs : ∀ j i, (expandIndices n)[j]? = some i → inputs.row j = inputs'.row i)
    (hstates : ∀ j i, (expandIndices n)[j]? = some i → ∀ key, (states key).row j = (states' key).row i) :
    Shared n (block.run inputs states full) (block.run inputs' states' kept) := by
  have hvideo : Batch.InRange (expandIndices n) kept.video.length := by
    rw [h.videoLength]
    exact expandIndices_inRange hn
  have haudio : Batch.InRange (expandIndices n) kept.audio.length := by
    rw [h.audioLength]
    exact expandIndices_inRange hn
  have hzip : Batch.InRange (expandIndices n) (kept.video.zip kept.audio).length := by
    rw [length_zip, h.videoLength, h.audioLength, min_self]
    exact expandIndices_inRange hn
  obtain ⟨hvideoLength, haudioLength⟩ := block.length_run inputs' states' h.videoLength h.audioLength
  have hrows := Batch.mapIdx_select hzip
    (f := fun j (row : R × R) => block.apply ⟨row.1, row.2, inputs.row j, fun key => (states key).row j⟩)
    (g := fun i (row : R × R) => block.apply ⟨row.1, row.2, inputs'.row i, fun key => (states' key).row i⟩)
    (by
      intro j i hij row
      rw [hinputs j i hij, funext (hstates j i hij)])
  refine ⟨?_, ?_, hvideoLength, haudioLength⟩
  · simp only [Block.run]
    rw [h.video, h.audio, Batch.select_zip hvideo haudio, Batch.select_map]
    exact congrArg (map Prod.fst) hrows
  · simp only [Block.run]
    rw [h.video, h.audio, Batch.select_zip hvideo haudio, Batch.select_map]
    exact congrArg (map Prod.snd) hrows

/-- The loop without a plan, next to the loop with a plan before it expands. -/
structure BeforeExpansion (call : Call R) (configs : List PerturbationConfig) (full kept : LoopState R) :
    Prop where
  hidden : Shared call.batchSize full.hidden kept.hidden
  fullInputs : full.inputs = call.inputs
  fullConfigs : full.configs = some configs
  keptInputs : kept.inputs = call.inputs.index (keepIndices call.batchSize) call.batchSize
  keptConfigs : kept.configs = some (Batch.select (keepIndices call.batchSize) configs)
  expanded : kept.expanded = false

theorem beforeExpansion_start (hconfigs : call.perturbationConfigs = some configs)
    (hplan : Admits plan configs blockIndices call.batchSize) (hfits : call.Fits)
    (hagrees : call.Agrees) :
    BeforeExpansion call configs (loopStart none call) (loopStart (some plan) call) := by
  have hn := hplan.shareable
  have hvideo : indexBatchDim plan.keepIndices call.batchSize call.hidden.video =
      Batch.select (keepIndices call.batchSize) call.hidden.video := by
    simp [indexBatchDim, Call.batchSize, hplan.keep]
  have haudio : indexBatchDim plan.keepIndices call.batchSize call.hidden.audio =
      Batch.select (keepIndices call.batchSize) call.hidden.audio := by
    simp [indexBatchDim, hfits.audio, hplan.keep]
  refine ⟨⟨?_, ?_, ?_, ?_⟩, rfl, hconfigs, ?_, ?_, rfl⟩
  · simp only [loopStart, Hidden.indexBatchDim, hvideo]
    exact (select_expand_keep hn rfl hagrees.video).symm
  · simp only [loopStart, Hidden.indexBatchDim, haudio]
    exact (select_expand_keep hn hfits.audio hagrees.audio).symm
  · simp only [loopStart, Hidden.indexBatchDim, hvideo]
    exact length_select_keep hn rfl
  · simp only [loopStart, Hidden.indexBatchDim, haudio]
    exact length_select_keep hn hfits.audio
  · simp only [loopStart, hplan.keep]
  · simp only [loopStart, hplan.keep, hconfigs, Option.map_some]

@[simp]
theorem expand_none (blockIdx : Int) (s : LoopState R) : expand none call blockIdx s = s := rfl

/-- **Step**: a block in front of the first skipped one. -/
theorem BeforeExpansion.step {kept : LoopState R}
    (h : BeforeExpansion call configs full kept) {block : Block R} (hn : Shareable call.batchSize)
    (hlength : configs.length = call.batchSize) (hfits : call.Fits) (hagrees : call.Agrees)
    (hbefore : ¬ plan.firstSkipBlock ≤ block.idx) (hclean : Unperturbed configs block.idx) :
    BeforeExpansion call configs (loopStep none call full block)
      (loopStep (some plan) call kept block) := by
  have hexpand : expand (some plan) call block.idx kept = kept := by simp [expand, hbefore]
  have hkept : loopStep (some plan) call kept block =
      { kept with hidden := block.run kept.inputs (attnState call kept.configs block.idx) kept.hidden } := by
    simp only [loopStep, hexpand]
  rw [hkept]
  refine { h with hidden := h.hidden.run hn block ?_ ?_ }
  · intro j i hij
    rw [expand_none, h.fullInputs, h.keptInputs]
    exact Call.row_expand hfits hagrees hn hij
  · intro j i hij key
    rw [expand_none, h.fullConfigs, h.keptConfigs]
    exact attnState_expand hn hlength hclean hij key

theorem foldl_loopStep_expanded (blocks : List (Block R)) {s : LoopState R}
    (hexpanded : s.expanded = true) (hhidden : s.hidden = full.hidden) (hinputs : s.inputs = full.inputs)
    (hconfigs : s.configs = full.configs) :
    (blocks.foldl (loopStep (some plan) call) s).hidden =
      (blocks.foldl (loopStep none call) full).hidden := by
  induction blocks generalizing s full with
  | nil => exact hhidden
  | cons block rest ih =>
    have hexpand : expand (some plan) call block.idx s = s := by simp [expand, hexpanded]
    refine ih ?_ ?_ ?_ ?_
    · simpa [loopStep, hexpand] using hexpanded
    · simp [loopStep, expand, hexpanded, hhidden, hinputs, hconfigs]
    · simpa only [loopStep, hexpand, expand_none] using hinputs
    · simpa only [loopStep, hexpand, expand_none] using hconfigs

section

variable {kept : LoopState R} (h : BeforeExpansion call configs full kept)
  (hplan : Admits plan configs blockIndices call.batchSize)
  (hconfigs : call.perturbationConfigs = some configs)
include h hplan hconfigs

theorem BeforeExpansion.expand_eq {blockIdx : Int} (hfirst : plan.firstSkipBlock ≤ blockIdx) :
    expand (some plan) call blockIdx kept = { full with expanded := true } := by
  have hlength : plan.keepIndices.length = call.batchSize - 1 := by
    rw [hplan.keep, length_keepIndices hplan.shareable]
  have hhidden : kept.hidden.indexBatchDim plan.expandIndices plan.keepIndices.length = full.hidden := by
    simp only [Hidden.indexBatchDim, indexBatchDim, hlength, h.hidden.videoLength,
      h.hidden.audioLength, ne_eq, not_true_eq_false, if_false, hplan.expand, ← h.hidden.video,
      ← h.hidden.audio]
  simp only [expand, h.expanded, hfirst, and_self, if_true, hhidden, hconfigs, h.fullConfigs, h.fullInputs]

/-- **Run**: whatever blocks follow, as long as the first skipped one is among them. -/
theorem BeforeExpansion.foldl_loopStep (hfits : call.Fits) (hagrees : call.Agrees) (blocks : List (Block R))
    (hfirst : ∃ block ∈ blocks, plan.firstSkipBlock ≤ block.idx)
    (hclean : ∀ b ∈ (blocks.map Block.idx).takeWhile (fun b => b < plan.firstSkipBlock), Unperturbed configs b) :
    (blocks.foldl (loopStep (some plan) call) kept).hidden =
      (blocks.foldl (loopStep none call) full).hidden := by
  induction blocks generalizing full kept with
  | nil => obtain ⟨block, hblock, _⟩ := hfirst; cases hblock
  | cons block rest ih =>
    by_cases hreached : plan.firstSkipBlock ≤ block.idx
    · -- the expansion: from here on both loops have the same variables
      have hstep : loopStep (some plan) call kept block =
          { loopStep none call full block with expanded := true } := by
        simp only [loopStep, h.expand_eq hplan hconfigs hreached]
        rfl
      rw [foldl_cons, foldl_cons, hstep]
      exact foldl_loopStep_expanded rest rfl rfl rfl rfl
    · refine ih (h.step hplan.shareable hplan.length hfits hagrees hreached ?_) ?_ ?_
      · exact hclean block.idx (by simp [not_le.1 hreached])
      · obtain ⟨b, hb, hle⟩ := hfirst
        rcases mem_cons.1 hb with rfl | hb
        · exact absurd hle hreached
        · exact ⟨b, hb, hle⟩
      · intro b hb
        refine hclean b ?_
        rw [map_cons, takeWhile_cons_of_pos (by simpa using hreached)]
        exact mem_cons_of_mem _ hb

end

theorem length_foldl_loopStep_none (blocks : List (Block R)) {s : LoopState R}
    (hvideo : s.hidden.video.length = n) (haudio : s.hidden.audio.length = n) :
    (blocks.foldl (loopStep none call) s).hidden.video.length = n ∧
      (blocks.foldl (loopStep none call) s).hidden.audio.length = n := by
  induction blocks generalizing s with
  | nil => exact ⟨hvideo, haudio⟩
  | cons block rest ih =>
    obtain ⟨hvideo', haudio'⟩ :=
      block.length_run s.inputs (attnState call s.configs block.idx) hvideo haudio
    exact ih hvideo' haudio'

theorem length_loop_none (hfits : call.Fits) (blocks : List (Block R)) :
    (loop none call blocks).hidden.video.length = call.batchSize ∧
      (loop none call blocks).hidden.audio.length = call.batchSize :=
  length_foldl_loopStep_none blocks rfl hfits.audio

/-- **The loop with the plan gives what it gives without.** -/
theorem loop_plan_eq (hplan : planOf env blocks call = some plan) (hfits : call.Fits)
    (hagrees : call.Agrees) : (loop (some plan) call blocks).hidden = (loop none call blocks).hidden := by
  obtain ⟨configs, hconfigs, hadmits⟩ := plan_admits hplan
  refine (beforeExpansion_start hconfigs hadmits hfits hagrees).foldl_loopStep hadmits hconfigs hfits hagrees
    blocks ?_ ?_
  · obtain ⟨block, hblock, hidx⟩ := mem_map.1 hadmits.first
    exact ⟨block, hblock, hidx.ge⟩
  · intro b hb
    refine ⟨fun config hconfig => ?_, fun config hconfig => hadmits.perturbed config hconfig b hb⟩
    exact hadmits.cond config hconfig b (takeWhile_subset _ hb)

theorem length_loopStart_plan (hplan : planOf env blocks call = some plan) :
    Shareable call.batchSize ∧ (loopStart (some plan) call).hidden.video.length = call.batchSize - 1 := by
  obtain ⟨configs, _, hadmits⟩ := plan_admits hplan
  refine ⟨hadmits.shareable, ?_⟩
  have hvideo : (loopStart (some plan) call).hidden.video =
      Batch.select (keepIndices call.batchSize) call.hidden.video := by
    simp [loopStart, Hidden.indexBatchDim, indexBatchDim, Call.batchSize, hadmits.keep]
  rw [hvideo, length_select_keep hadmits.shareable rfl]

/-! ## The hook -/

section Forward

variable [Add F] [LE F] [DecidableLE F] [OfScientific F] [Add R] [Sub R]
variable {ops : TeaCache.TensorOps (Tensor R) F} {c : TeaCache.Coordinator (Tensor R) F}

omit [Add R] [Sub R] in
theorem hiddenOf?_eq_some {tensors : Tensor R × Tensor R} {out : Hidden R}
    (h : hiddenOf? tensors = some out) : tensors.1.rows = some out.video := by
  unfold hiddenOf? at h
  split at h
  next hvideo _ => cases h; exact hvideo
  · cases h

omit [Sub R] in
theorem length_of_add {xs rows : List R} {y : Tensor R} (hxs : xs.length ≠ 1)
    (h : (Tensor.of xs + y).rows = some rows) : rows.length = xs.length := by
  obtain ⟨ys, _, hrows⟩ := Option.bind_eq_some_iff.1 h
  exact Batch.length_of_broadcast hrows hxs

omit [Add R] in
theorem sub_raises {xs ys : List R} (h : xs.length ≠ ys.length) (hxs : xs.length ≠ 1)
    (hys : ys.length ≠ 1) : (Tensor.of xs - Tensor.of ys).rows = none :=
  Batch.broadcast_of_ne h hxs hys

/-- The call returns the hidden states of the full batch that it returns without the plan. -/
def Preserves (env : Env) (ops : TeaCache.TensorOps (Tensor R) F)
    (coordinator : Option (TeaCache.Coordinator (Tensor R) F)) (blocks : List (Block R))
    (call : Call R) : Prop :=
  ∃ out c c', forward env ops coordinator blocks call = some (out, c) ∧
    forwardWith ops none coordinator blocks call = some (out, c') ∧
    out.video.length = call.batchSize ∧ out.audio.length = call.batchSize

section

variable (hplan : planOf env blocks call = some plan) (hfits : call.Fits) (hagrees : call.Agrees)
include hplan hfits hagrees

theorem preserves_without_hook : Preserves env ops none blocks call := by
  obtain ⟨hvideo, haudio⟩ := length_loop_none hfits blocks
  refine ⟨(loop none call blocks).hidden, none, none, ?_, rfl, hvideo, haudio⟩
  rw [forward, hplan, forwardWith, loop_plan_eq hplan hfits hagrees]

/-- A hit answers with the rows kept, and a computed call raises in `store`. -/
theorem forwardWith_hook {out : Hidden R} {c' : Option (TeaCache.Coordinator (Tensor R) F)}
    (h : forwardWith ops (some plan) (some c) blocks call = some (out, c')) :
    out.video.length = call.batchSize - 1 := by
  obtain ⟨hn, hstart⟩ := length_loopStart_plan hplan
  have hsizes : call.batchSize - 1 ≠ 1 ∧ call.batchSize ≠ 1 ∧ call.batchSize ≠ call.batchSize - 1 := by
    rcases hn with hn | hn <;> omega
  simp only [forwardWith] at h
  split at h
  next tensors htensors =>
    obtain ⟨hidden, hhidden, hout⟩ := Option.map_eq_some_iff.1 h
    cases hout
    obtain ⟨residual, rfl⟩ := Residual.lookup_hidden htensors
    have hrows := hiddenOf?_eq_some hhidden
    rw [← hstart]
    refine length_of_add ?_ hrows
    rw [hstart]
    exact hsizes.1
  · -- the loop has expanded the batch since `lookup`
    obtain ⟨hidden, hhidden, _⟩ := Option.map_eq_some_iff.1 h
    have hrows := hiddenOf?_eq_some hhidden
    have hfull : (loop (some plan) call blocks).hidden.video.length = call.batchSize := by
      rw [loop_plan_eq hplan hfits hagrees]
      exact (length_loop_none hfits blocks).1
    have hraises : (Tensor.of (loop (some plan) call blocks).hidden.video -
        Tensor.of (loopStart (some plan) call).hidden.video).rows = none := by
      refine sub_raises ?_ ?_ ?_
      · rw [hfull, hstart]; exact hsizes.2.2
      · rw [hfull]; exact hsizes.2.1
      · rw [hstart]; exact hsizes.1
    exact absurd (hraises.symm.trans hrows) (by simp)

end

/-- **The shared prefix preserves the result exactly when no TeaCache is installed.** -/
theorem forward_preserves_iff (env : Env) (ops : TeaCache.TensorOps (Tensor R) F)
    (coordinator : Option (TeaCache.Coordinator (Tensor R) F)) (blocks : List (Block R))
    (call : Call R) (hplan : (planOf env blocks call).isSome) (hfits : call.Fits)
    (hagrees : call.Agrees) :
    Preserves env ops coordinator blocks call ↔ coordinator = none := by
  obtain ⟨plan, hplan⟩ := Option.isSome_iff_exists.1 hplan
  cases coordinator with
  | none => exact iff_of_true (preserves_without_hook hplan hfits hagrees) rfl
  | some c =>
    refine iff_of_false ?_ (by simp)
    rintro ⟨out, c₁, c₂, hshared, _, hvideo, _⟩
    rw [forward, hplan] at hshared
    have hkept := forwardWith_hook hplan hfits hagrees hshared
    rcases (length_loopStart_plan hplan).1 with hn | hn <;> omega

/-- Two blocks, the second of which is skipped in the third row. -/
def twoBlocks : List (Block ℚ) :=
  let apply (args : RowArgs ℚ) : ℚ × ℚ :=
    (args.video + ((args.switch .skipVideoSelfAttnBlocks).mask.getD 1 : ℕ), args.audio + 1)
  [⟨0, apply⟩, ⟨1, apply⟩]

def threeRows : Call ℚ where
  hidden := ⟨[1, 2, 1], [3, 4, 3]⟩
  inputs := ⟨fun _ => .other 0, fun _ => none⟩
  perturbationConfigs := some [{}, {}, { skipVideoSelfAttnBlocks := some [1] }]

def numberOps : TeaCache.TensorOps (Tensor ℚ) ℚ where
  shape := fun x => [(x.rows.getD []).length]
  dtype := fun _ => "float32"
  flatten := fun x => x.rows.getD []
  relL1 := fun xs ys => (zipWith (fun x y => |x - y|) xs ys).sum

theorem threeRows_fits : threeRows.Fits := ⟨rfl, fun _ => trivial, nofun⟩

theorem threeRows_agrees : threeRows.Agrees := ⟨rfl, rfl, rfl⟩

/-- The perturbed row is shared in the first block, and differs after the second. -/
theorem forward_preserves_three_rows :
    (planOf ⟨true, 1⟩ twoBlocks threeRows).isSome ∧
      (loop none threeRows twoBlocks).hidden = ⟨[3, 4, 2], [5, 6, 5]⟩ ∧
      Preserves ⟨true, 1⟩ numberOps none twoBlocks threeRows :=
  ⟨by decide, by decide +kernel,
    (forward_preserves_iff ⟨true, 1⟩ numberOps none twoBlocks threeRows (by decide) threeRows_fits
      threeRows_agrees).2 rfl⟩

/-- With a new TeaCache the same call raises, although it returns without the plan. -/
theorem forward_raises_with_hook :
    (planOf ⟨true, 1⟩ twoBlocks threeRows).isSome ∧ threeRows.Fits ∧ threeRows.Agrees ∧
      forward ⟨true, 1⟩ numberOps (some { config := {} }) twoBlocks threeRows = none ∧
      ((forwardWith numberOps none (some { config := {} }) twoBlocks threeRows).map Prod.fst) =
        some ⟨[3, 4, 2], [5, 6, 5]⟩ :=
  ⟨by decide, threeRows_fits, threeRows_agrees, Option.isNone_iff_eq_none.1 (by decide +kernel),
    by decide +kernel⟩

end Forward

end PrefixShare

end Ltx2
