import SolInfer.Lib.Slices
import SolInfer.Scheduler.Batching

set_option autoImplicit false

/-! # Merging requests and splitting their output

`_try_merge_generation_reqs` and `_split_batched_output` of `managers/scheduler.py`: compatible requests run
as one, and what comes back is cut into the outputs of each. -/

open List

namespace Scheduler

variable {σ ρ τ α π μ F : Type}

/-! ## Merging -/

/-- A generation request; `τ` are seeds. -/
structure GenerationReq (σ ρ τ : Type) extends Req σ ρ where
  prompt : String
  seed : τ
  numOutputsPerPrompt : Nat
  requestId : String
  /-- What `output_file_path` gives. -/
  outputFilePath : Nat → Nat → Option String

/-- A copy of the first request with what is set on it. -/
structure MergedReq (σ ρ τ : Type) where
  base : GenerationReq σ ρ τ
  prompt : List String
  dynamicBatchSeeds : List τ
  dynamicBatchOutputPaths : Option (List (Option String))
  requestId : String

inductive Merged (σ ρ τ : Type) where
  | single (req : GenerationReq σ ρ τ)
  | batch (merged : MergedReq σ ρ τ)

def GenerationReq.outputPaths (req : GenerationReq σ ρ τ) : List (Option String) :=
  (range req.numOutputsPerPrompt).map (req.outputFilePath req.numOutputsPerPrompt)

def tryMergeGenerationReqs [DecidableEq σ] : List (GenerationReq σ ρ τ) → Option (Merged σ ρ τ)
  | [] => none
  | [req] => some (.single req)
  | base :: rest =>
    if rest.any (fun req => ¬ canDynamicBatch base.toReq req.toReq) then none
    else
      let reqs := base :: rest
      some (.batch {
        base := base
        prompt := reqs.map (·.prompt)
        dynamicBatchSeeds := reqs.map (·.seed)
        dynamicBatchOutputPaths :=
          if base.returnFilePathsOnly then some (reqs.flatMap (·.outputPaths)) else none
        requestId := "dynamic_batch::" ++ base.requestId })

/-! ## Splitting -/

/-- A value of an output: a list, a tuple or an array of items, or something else that is not sliced, with
    its first dimension if it has a shape. -/
inductive Value (α π : Type) where
  | list (items : List α)
  | tuple (items : List α)
  | array (items : List α)
  | other (firstDim : Option Nat) (payload : π)

def Value.items? : Value α π → Option (List α)
  | .list items | .tuple items | .array items => some items
  | .other _ _ => none

def countFirstDim : Option (Value α π) → Option Nat
  | none => none
  | some (.list items) | some (.tuple items) | some (.array items) => some items.length
  | some (.other firstDim _) => firstDim

/-- `items[start:end]`. -/
def slice (start stop : Nat) (items : List α) : List α := (items.take stop).drop start

def sliceBatchedValue (start stop totalItems : Nat) : Option (Value α π) → Option (Value α π)
  | none => none
  | some (.list items) => some (.list (if items.length = totalItems then slice start stop items else items))
  | some (.tuple items) => some (.tuple (if items.length = totalItems then slice start stop items else items))
  | some (.array items) => some (.array (if items.length = totalItems then slice start stop items else items))
  | some (.other firstDim payload) => some (.other firstDim payload)

/-- `OutputBatch`; `μ` is what else its metrics hold. -/
structure OutputBatch (α π μ F : Type) where
  output : Option (Value α π) := none
  audio : Option (Value α π) := none
  audioSampleRate : Option Int := none
  trajectoryTimesteps : Option (Value α π) := none
  trajectoryLatents : Option (Value α π) := none
  /-- A record of tensors over the samples, as the records that
      `_slice_rollout_trajectory_for_sample` takes of it. -/
  rolloutTrajectoryData : Option (Value α π) := none
  trajectoryDecoded : Option (Value α π) := none
  error : Option String := none
  outputFilePaths : Option (Value α π) := none
  /-- The request id of the metrics, and the rest of them. -/
  metrics : Option (String × μ) := none
  metricsList : Option (List (Option (String × μ))) := none
  noisePred : Option (Value α π) := none
  peakMemoryMb : F

/-- The fields that hold values of all samples. -/
inductive Field where
  | output | audio | trajectoryTimesteps | trajectoryLatents | rolloutTrajectoryData | trajectoryDecoded
  | outputFilePaths | noisePred
deriving DecidableEq

def OutputBatch.get (batch : OutputBatch α π μ F) : Field → Option (Value α π)
  | .output => batch.output
  | .audio => batch.audio
  | .trajectoryTimesteps => batch.trajectoryTimesteps
  | .trajectoryLatents => batch.trajectoryLatents
  | .rolloutTrajectoryData => batch.rolloutTrajectoryData
  | .trajectoryDecoded => batch.trajectoryDecoded
  | .outputFilePaths => batch.outputFilePaths
  | .noisePred => batch.noisePred

def OutputBatch.splitFor (batch : OutputBatch α π μ F) (requestId : String) (start stop totalItems : Nat) :
    OutputBatch α π μ F where
  output := sliceBatchedValue start stop totalItems batch.output
  audio := sliceBatchedValue start stop totalItems batch.audio
  audioSampleRate := batch.audioSampleRate
  trajectoryTimesteps := sliceBatchedValue start stop totalItems batch.trajectoryTimesteps
  trajectoryLatents := sliceBatchedValue start stop totalItems batch.trajectoryLatents
  trajectoryDecoded := sliceBatchedValue start stop totalItems batch.trajectoryDecoded
  error := batch.error
  outputFilePaths := sliceBatchedValue start stop totalItems batch.outputFilePaths
  metrics := batch.metrics.map fun metrics => (requestId, metrics.2)
  noisePred := sliceBatchedValue start stop totalItems batch.noisePred
  peakMemoryMb := batch.peakMemoryMb

def splitLoop (batch : OutputBatch α π μ F) (totalItems : Nat) :
    Nat → List (GenerationReq σ ρ τ) → List (OutputBatch α π μ F)
  | _, [] => []
  | start, req :: rest =>
    let stop := start + req.numOutputsPerPrompt
    batch.splitFor req.requestId start stop totalItems :: splitLoop batch totalItems stop rest

def splitBatchedOutput (batch : OutputBatch α π μ F) (reqs : List (GenerationReq σ ρ τ)) :
    Option (List (OutputBatch α π μ F)) :=
  let totalItems := (reqs.map (·.numOutputsPerPrompt)).sum
  let outputItems := countFirstDim batch.output
  let outputPathItems := countFirstDim batch.outputFilePaths
  if outputItems = none ∧ outputPathItems = none then none
  else if outputItems.any (· ≠ totalItems) then none
  else if outputPathItems.any (· ≠ totalItems) then none
  else some (splitLoop batch totalItems 0 reqs)

/-! ## Consecutive slices -/

theorem getElem?_splitLengths (counts : List Nat) (items : List α) (i : Nat) :
    (counts.splitLengths items)[i]?
      = counts[i]?.map fun n => slice (counts.take i).sum ((counts.take i).sum + n) items := by
  induction counts generalizing items i with
  | nil => rfl
  | cons n rest ih =>
    rw [splitLengths_cons]
    cases i with
    | zero => simp [slice]
    | succ i =>
      rw [getElem?_cons_succ, getElem?_cons_succ, take_succ_cons, sum_cons, ih]
      refine congrArg (Option.map · _) (funext fun k => ?_)
      rw [slice, slice, take_drop, drop_drop, Nat.add_assoc]

/-! ## Results -/

variable {batch : OutputBatch α π μ F} {reqs : List (GenerationReq σ ρ τ)}

/-- Of the fields over the samples only the rollout data is not handed on. -/
theorem get_splitFor (requestId : String) (start stop total : Nat) {field : Field}
    (hfield : field ≠ .rolloutTrajectoryData) :
    (batch.splitFor requestId start stop total).get field
      = sliceBatchedValue start stop total (batch.get field) := by
  cases field with
  | rolloutTrajectoryData => exact absurd rfl hfield
  | _ => rfl

theorem items_sliceBatchedValue {value : Value α π} {items : List α} (start stop : Nat)
    (hitems : value.items? = some items) :
    (sliceBatchedValue start stop items.length (some value)).bind Value.items?
      = some (slice start stop items) := by
  cases value with
  | other _ _ => cases hitems
  | _ _ => cases hitems; simp [sliceBatchedValue, Value.items?]

theorem items_splitLoop {field : Field} {value : Value α π} {items : List α}
    (hfield : field ≠ .rolloutTrajectoryData) (hget : batch.get field = some value)
    (hitems : value.items? = some items) (start : Nat) :
    (splitLoop batch items.length start reqs).map (fun out => (out.get field).bind Value.items?)
      = ((reqs.map (·.numOutputsPerPrompt)).splitLengths (items.drop start)).map some := by
  induction reqs generalizing start with
  | nil => rfl
  | cons req rest ih =>
    rw [splitLoop, map_cons, ih, get_splitFor _ _ _ _ hfield, hget, items_sliceBatchedValue start _ hitems,
      map_cons, splitLengths_cons, map_cons, drop_drop, slice, drop_take, Nat.add_sub_cancel_left]

theorem length_splitLoop (total start : Nat) : (splitLoop batch total start reqs).length = reqs.length := by
  induction reqs generalizing start with
  | nil => rfl
  | cons req rest ih => exact congrArg Nat.succ (ih _)

/-- The counts of the two fields that say how many items there are. -/
def OutputBatch.itemCounts (batch : OutputBatch α π μ F) : List (Option Nat) :=
  [countFirstDim batch.output, countFirstDim batch.outputFilePaths]

def totalItems (reqs : List (GenerationReq σ ρ τ)) : Nat := (reqs.map (·.numOutputsPerPrompt)).sum

def itemsBefore (reqs : List (GenerationReq σ ρ τ)) (i : Nat) : Nat := totalItems (reqs.take i)

/-- What the requests give to a merged request, in their order: prompts, seeds, and, if file paths are
    returned, the path of each sample at the place of the sample. -/
structure InOrder (reqs : List (GenerationReq σ ρ τ)) (merged : MergedReq σ ρ τ) : Prop where
  base : reqs.head? = some merged.base
  prompt : merged.prompt = reqs.map (·.prompt)
  seeds : merged.dynamicBatchSeeds = reqs.map (·.seed)
  returnsPaths : merged.dynamicBatchOutputPaths.isSome = merged.base.returnFilePathsOnly
  length_paths : ∀ paths ∈ merged.dynamicBatchOutputPaths, paths.length = totalItems reqs
  paths : ∀ paths ∈ merged.dynamicBatchOutputPaths, ∀ i req, reqs[i]? = some req →
    ∀ idx < req.numOutputsPerPrompt,
      paths[itemsBefore reqs i + idx]? = some (req.outputFilePath req.numOutputsPerPrompt idx)

theorem getElem?_flatMap_outputPaths {i idx : Nat} {req : GenerationReq σ ρ τ} (hreq : reqs[i]? = some req)
    (hidx : idx < req.numOutputsPerPrompt) :
    (reqs.flatMap (·.outputPaths))[itemsBefore reqs i + idx]?
      = some (req.outputFilePath req.numOutputsPerPrompt idx) := by
  have hcounts : reqs.map (·.numOutputsPerPrompt) = (reqs.map (·.outputPaths)).map length := by
    simp [GenerationReq.outputPaths]
  have hpiece := getElem?_splitLengths (reqs.map (·.numOutputsPerPrompt)) (reqs.flatMap (·.outputPaths)) i
  rw [hcounts, flatMap_def, Slices.splitLengths_flatten, ← hcounts, ← flatMap_def, getElem?_map, getElem?_map,
    hreq, ← map_take] at hpiece
  have hslice : req.outputPaths = slice (itemsBefore reqs i)
      (itemsBefore reqs i + req.numOutputsPerPrompt) (reqs.flatMap (·.outputPaths)) := Option.some.inj hpiece
  have hpath : req.outputPaths[idx]? = some (req.outputFilePath req.numOutputsPerPrompt idx) := by
    simp [GenerationReq.outputPaths, hidx]
  rw [hslice, slice, getElem?_drop, getElem?_take_of_lt (Nat.add_lt_add_left hidx _)] at hpath
  exact hpath

theorem tryMerge_inOrder [DecidableEq σ] (hlen : 2 ≤ reqs.length)
    (h : ∀ a ∈ reqs, ∀ b ∈ reqs, canDynamicBatch a.toReq b.toReq) :
    ∃ merged, tryMergeGenerationReqs reqs = some (.batch merged) ∧ InOrder reqs merged := by
  match reqs, hlen with
  | base :: second :: rest, _ =>
    have hany : ((second :: rest).any fun req => ¬ canDynamicBatch base.toReq req.toReq) = false := by
      rw [any_eq_false]
      intro req hreq
      simp [h base mem_cons_self req (.tail _ hreq)]
    refine ⟨_, by rw [tryMergeGenerationReqs, hany]; rfl; simp, rfl, rfl, rfl, ?_, ?_, ?_⟩
    · dsimp only
      cases base.returnFilePathsOnly <;> rfl
    · intro paths hpaths
      split at hpaths
      · cases hpaths
        simp [length_flatMap, GenerationReq.outputPaths, totalItems]
      · cases hpaths
    · intro paths hpaths i req hreq idx hidx
      split at hpaths
      · cases hpaths
        exact getElem?_flatMap_outputPaths hreq hidx
      · cases hpaths

/-- A field with an item for each sample is cut at the boundaries of the requests. -/
def CutAt (reqs : List (GenerationReq σ ρ τ)) (batch : OutputBatch α π μ F) (outs : List (OutputBatch α π μ F))
    (field : Field) : Prop :=
  ∀ value items, batch.get field = some value → value.items? = some items → items.length = totalItems reqs →
    ∃ pieces : List (List α),
      outs.map (fun out => (out.get field).bind Value.items?) = pieces.map some ∧
      pieces.flatten = items ∧
      ∀ i req, reqs[i]? = some req → pieces[i]? = some
        (slice (itemsBefore reqs i) (itemsBefore reqs i + req.numOutputsPerPrompt) items)

/-- The counts of the output say that there is an item for each sample. -/
structure OutputBatch.CountsAgree (batch : OutputBatch α π μ F) (total : Nat) : Prop where
  counted : some total ∈ batch.itemCounts
  agree : ∀ n, some n ∈ batch.itemCounts → n = total

/-- Merged results go back to their requests: the merged request holds what the requests give, in their
    order; when a count of items differs from the total, nothing is split; otherwise each request gets an
    output, and every field over the samples is cut at the boundaries of the requests. -/
structure GoesBack [DecidableEq σ] (reqs : List (GenerationReq σ ρ τ)) (batch : OutputBatch α π μ F) :
    Prop where
  merged : 2 ≤ reqs.length →
    ∃ merged, tryMergeGenerationReqs reqs = some (.batch merged) ∧ InOrder reqs merged
  refused : (∃ n, some n ∈ batch.itemCounts ∧ n ≠ totalItems reqs) → splitBatchedOutput batch reqs = none
  split : batch.CountsAgree (totalItems reqs) →
    ∃ outs, splitBatchedOutput batch reqs = some outs ∧ outs.length = reqs.length ∧
      ∀ field, CutAt reqs batch outs field

theorem splitBatchedOutput_eq_none (h : ∃ n, some n ∈ batch.itemCounts ∧ n ≠ totalItems reqs) :
    splitBatchedOutput batch reqs = none := by
  obtain ⟨n, hmem, hne⟩ := h
  rw [totalItems] at hne
  rw [splitBatchedOutput]
  simp only [OutputBatch.itemCounts, mem_cons, not_mem_nil, or_false] at hmem
  rcases hmem with hcount | hcount
  · simp [← hcount, hne]
  · simp [← hcount, hne]

theorem splitBatchedOutput_eq (h : batch.CountsAgree (totalItems reqs)) :
    splitBatchedOutput batch reqs = some (splitLoop batch (totalItems reqs) 0 reqs) := by
  have hsome : ¬ (countFirstDim batch.output = none ∧ countFirstDim batch.outputFilePaths = none) := by
    rintro ⟨houtput, hpaths⟩
    have hcounted := h.counted
    simp [OutputBatch.itemCounts, houtput, hpaths] at hcounted
  have hany : ∀ count ∈ batch.itemCounts,
      count.any (· ≠ (reqs.map (·.numOutputsPerPrompt)).sum) = false := by
    rintro (_ | n) hcount
    · rfl
    · simp [h.agree n hcount, totalItems]
  rw [splitBatchedOutput]
  simp only [if_neg hsome, hany _ (mem_cons_self ..), hany _ (mem_cons_of_mem _ (mem_cons_self ..))]
  rfl

theorem cutAt_of_ne {field : Field} (hfield : field ≠ .rolloutTrajectoryData) :
    CutAt reqs batch (splitLoop batch (totalItems reqs) 0 reqs) field := by
  intro value items hget hitems hlen
  rw [← hlen]
  refine ⟨_, items_splitLoop hfield hget hitems 0, flatten_splitLengths items _ hlen.le,
    fun i req hreq => ?_⟩
  rw [drop_zero, getElem?_splitLengths, getElem?_map, hreq, ← map_take]
  rfl

/-- The output holds no rollout data over `total` samples. -/
def OutputBatch.NoRollout (batch : OutputBatch α π μ F) (total : Nat) : Prop :=
  ∀ value items, batch.rolloutTrajectoryData = some value → value.items? = some items → items.length ≠ total

theorem cutAt_rollout_iff (hne : reqs ≠ []) :
    CutAt reqs batch (splitLoop batch (totalItems reqs) 0 reqs) .rolloutTrajectoryData
      ↔ batch.NoRollout (totalItems reqs) := by
  constructor
  · intro hcut value items hget hitems hlen
    obtain ⟨pieces, hpieces, -⟩ := hcut value items hget hitems hlen
    obtain ⟨req, rest, rfl⟩ := exists_cons_of_ne_nil hne
    cases pieces with
    | nil => cases hpieces
    | cons piece _ =>
      -- the first request has nothing, not even an empty piece
      exact absurd (cons.inj hpieces).1 (Option.some_ne_none piece).symm
  · intro hnone value items hget hitems hlen
    exact absurd hlen (hnone value items hget hitems)

/-- Two requests, one for a picture and one for two. -/
def pictures : List (GenerationReq Unit Unit Nat) :=
  [⟨⟨false, true, none, true, some (), none, none, ()⟩, "a", 1, 1, "r0", fun _ k => some (toString k)⟩,
    ⟨⟨false, true, none, true, some (), none, none, ()⟩, "b", 2, 2, "r1", fun _ k => some (toString k)⟩]

theorem pictures_compatible : ∀ a ∈ pictures, ∀ b ∈ pictures, canDynamicBatch a.toReq b.toReq := by
  intro a ha b hb
  fin_cases ha <;> fin_cases hb <;> rfl

/-- Three pictures, with or without rollout data. -/
def pictureOutput (rollout : Option (Value Nat Unit)) : OutputBatch Nat Unit Unit Nat where
  output := some (.list [5, 6, 7])
  rolloutTrajectoryData := rollout
  peakMemoryMb := 0

theorem pictureOutput_countsAgree (rollout : Option (Value Nat Unit)) :
    (pictureOutput rollout).CountsAgree (totalItems pictures) :=
  ⟨mem_cons_self, fun n hn => by
    simpa [OutputBatch.itemCounts, pictureOutput, countFirstDim, pictures, totalItems] using hn⟩

end Scheduler
