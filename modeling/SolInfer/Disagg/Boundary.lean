import SolInfer.Lib.Json
import SolInfer.Lib.Dict
import SolInfer.Transport.Tensor

set_option autoImplicit false

/-! # Requests across the role boundary

`scheduler_mixin.py` sends a request from one role to the next in two parts: `extract_transfer_fields`
splits it into tensors, which go through the transfer buffer, and scalars, which go through JSON;
`_build_disagg_req` rebuilds a request from the two. Both walk the dataclass fields of `Req` and
`SamplingParams`, which are the tables `reqFields` and `spFields` here. -/

namespace Boundary

/-- A value a request holds: JSON data, a tensor, or a non-empty list of tensors. -/
inductive Value where
  | json (j : Json)
  | tensor (t : Tensor)
  | tensors (first : Tensor) (rest : List Tensor)

/-- The operations of `torch` the boundary uses on the elements of a tensor. -/
structure Torch where
  /-- `t.tolist()`: a number or a list, never `None`. -/
  tolist : Tensor → Json
  tolist_not_null : ∀ t, (tolist t).isNull = false
  /-- `bool(t == c)` for a tensor with one element. -/
  elementEq : Tensor → Json → Bool
  /-- `bool(t > c)` for a tensor with one element. -/
  elementGt : Tensor → ℚ → Bool

inductive Default where
  | value (j : Json)
  | listFactory
  /-- Any other factory or default; only excluded fields have one. -/
  | factory

structure DataclassField where
  name : String
  default : Default

/-! ## The dataclasses -/

namespace Req

/-- The fields of `Req`, in order. -/
def fields : List DataclassField :=
  [⟨"sampling_params", .value .null⟩, ⟨"generator", .value .null⟩, ⟨"image_embeds", .listFactory⟩,
    ⟨"original_condition_image_size", .value .null⟩, ⟨"condition_image", .value .null⟩,
    ⟨"vae_image", .value .null⟩, ⟨"pixel_values", .value .null⟩,
    ⟨"preprocessed_image", .value .null⟩, ⟨"output_file_ext", .value .null⟩,
    ⟨"prompt_embeds", .listFactory⟩, ⟨"negative_prompt_embeds", .value .null⟩,
    ⟨"prompt_attention_mask", .value .null⟩, ⟨"negative_attention_mask", .value .null⟩,
    ⟨"prompt_embeds_mask", .value .null⟩, ⟨"negative_prompt_embeds_mask", .value .null⟩,
    ⟨"prompt_seq_lens", .value .null⟩, ⟨"negative_prompt_seq_lens", .value .null⟩,
    ⟨"clip_embedding_pos", .value .null⟩, ⟨"clip_embedding_neg", .value .null⟩,
    ⟨"pooled_embeds", .listFactory⟩, ⟨"neg_pooled_embeds", .listFactory⟩,
    ⟨"max_sequence_length", .value .null⟩, ⟨"prompt_template", .value .null⟩,
    ⟨"do_classifier_free_guidance", .value (.bool false)⟩, ⟨"seeds", .value .null⟩,
    ⟨"is_prompt_processed", .value (.bool false)⟩, ⟨"audio_prompt_embeds", .listFactory⟩,
    ⟨"negative_audio_prompt_embeds", .listFactory⟩, ⟨"latents", .value .null⟩, ⟨"y", .value .null⟩,
    ⟨"latent_ids", .value .null⟩, ⟨"audio_latents", .value .null⟩, ⟨"audio_noise", .value .null⟩,
    ⟨"raw_audio_latent_shape", .value .null⟩, ⟨"did_sp_shard_audio_latents", .value (.bool false)⟩,
    ⟨"sp_audio_start_frame", .value (.int 0)⟩, ⟨"sp_audio_orig_num_frames", .value (.int 0)⟩,
    ⟨"generate_audio", .value (.bool true)⟩, ⟨"raw_latent_shape", .value .null⟩,
    ⟨"did_sp_shard_latents", .value (.bool false)⟩, ⟨"sp_video_start_frame", .value (.int 0)⟩,
    ⟨"noise_pred", .value .null⟩, ⟨"image_latent", .value .null⟩,
    ⟨"condition_image_latent_ids", .value .null⟩, ⟨"vae_image_sizes", .value .null⟩,
    ⟨"height_latents", .value .null⟩, ⟨"width_latents", .value .null⟩, ⟨"timesteps", .value .null⟩,
    ⟨"paired_timesteps", .value .null⟩, ⟨"timestep", .value .null⟩, ⟨"step_index", .value .null⟩,
    ⟨"scheduler", .value .null⟩, ⟨"eta", .value (.float 0)⟩, ⟨"sigmas", .value .null⟩,
    ⟨"n_tokens", .value .null⟩, ⟨"extra_step_kwargs", .factory⟩, ⟨"modules", .factory⟩,
    ⟨"trajectory_timesteps", .value .null⟩, ⟨"trajectory_latents", .value .null⟩,
    ⟨"rollout_trajectory_data", .value .null⟩, ⟨"trajectory_audio_latents", .value .null⟩,
    ⟨"extra", .factory⟩, ⟨"is_warmup", .value (.bool false)⟩, ⟨"STA_param", .value .null⟩,
    ⟨"is_cfg_negative", .value (.bool false)⟩, ⟨"mask_search_final_result_pos", .value .null⟩,
    ⟨"mask_search_final_result_neg", .value .null⟩, ⟨"VSA_sparsity", .value (.float 0)⟩,
    ⟨"metrics", .value .null⟩, ⟨"trace_ctx", .factory⟩, ⟨"output", .value .null⟩,
    ⟨"audio", .value .null⟩, ⟨"audio_sample_rate", .value .null⟩]

def excludeFields : List String :=
  ["sampling_params", "generator", "modules", "metrics", "extra_step_kwargs", "extra",
    "condition_image", "vae_image", "pixel_values", "preprocessed_image", "image_embeds",
    "original_condition_image_size", "vae_image_sizes", "output", "audio", "audio_sample_rate",
    "trajectory_timesteps", "trajectory_latents", "trajectory_audio_latents", "timestep",
    "step_index", "scheduler", "prompt_template", "max_sequence_length", "trace_ctx"]

end Req

namespace SamplingParams

def defaultNegativePrompt : String :=
  "Bright tones, overexposed, static, blurred details, subtitles, style, works, " ++
    "paintings, images, static, overall gray, worst quality, low quality, JPEG compression " ++
    "residue, ugly, incomplete, extra fingers, poorly drawn hands, poorly drawn faces, " ++
    "deformed, disfigured, misshapen limbs, fused fingers, still picture, messy background, " ++
    "three legs, many people in the background, walking backwards"

/-- The fields of `SamplingParams`, in order; where there is a default value, `_BASE_SP_DEFAULTS`
    has it. -/
def fields : List DataclassField :=
  [⟨"data_type", .factory⟩, ⟨"request_id", .value .null⟩, ⟨"image_path", .value .null⟩,
    ⟨"prompt", .value .null⟩, ⟨"negative_prompt", .value (.str defaultNegativePrompt)⟩,
    ⟨"prompt_path", .value .null⟩, ⟨"output_path", .value .null⟩,
    ⟨"output_file_name", .value .null⟩, ⟨"output_quality", .value (.str "default")⟩,
    ⟨"output_compression", .value .null⟩, ⟨"enable_frame_interpolation", .value (.bool false)⟩,
    ⟨"frame_interpolation_exp", .value (.int 1)⟩, ⟨"frame_interpolation_scale", .value (.float 1)⟩,
    ⟨"frame_interpolation_model_path", .value .null⟩, ⟨"enable_upscaling", .value (.bool false)⟩,
    ⟨"upscaling_model_path", .value .null⟩, ⟨"upscaling_scale", .value (.int 4)⟩,
    ⟨"num_outputs_per_prompt", .value (.int 1)⟩, ⟨"seed", .value (.int 42)⟩,
    ⟨"generator_device", .value .null⟩, ⟨"num_frames", .value (.int 1)⟩,
    ⟨"num_frames_round_down", .value (.bool false)⟩, ⟨"height", .value .null⟩,
    ⟨"width", .value .null⟩, ⟨"fps", .value (.int 24)⟩, ⟨"supported_resolutions", .value .null⟩,
    ⟨"num_inference_steps", .value .null⟩, ⟨"guidance_scale", .value (.float 1)⟩,
    ⟨"guidance_scale_2", .value .null⟩, ⟨"true_cfg_scale", .value .null⟩,
    ⟨"guidance_rescale", .value (.float 0)⟩, ⟨"cfg_normalization", .value (.float 0)⟩,
    ⟨"boundary_ratio", .value .null⟩, ⟨"enable_teacache", .value (.bool false)⟩,
    ⟨"teacache_params", .value .null⟩, ⟨"profile", .value (.bool false)⟩,
    ⟨"num_profiled_timesteps", .value (.int 5)⟩, ⟨"profile_all_stages", .value (.bool false)⟩,
    ⟨"debug", .value (.bool false)⟩, ⟨"perf_dump_path", .value .null⟩,
    ⟨"save_output", .value (.bool true)⟩, ⟨"return_frames", .value (.bool false)⟩,
    ⟨"rollout", .value (.bool false)⟩, ⟨"rollout_sde_type", .value (.str "sde")⟩,
    ⟨"rollout_noise_level", .value (.float (3152519739159347 / 4503599627370496))⟩,
    ⟨"rollout_log_prob_no_const", .value (.bool false)⟩,
    ⟨"rollout_debug_mode", .value (.bool false)⟩,
    ⟨"return_trajectory_latents", .value (.bool false)⟩,
    ⟨"return_trajectory_decoded", .value (.bool false)⟩,
    ⟨"rollout_return_denoising_env", .value (.bool false)⟩,
    ⟨"rollout_return_dit_trajectory", .value (.bool false)⟩,
    ⟨"rollout_sde_step_indices", .value .null⟩, ⟨"rollout_return_step_indices", .value .null⟩,
    ⟨"no_override_protected_fields", .value (.bool false)⟩, ⟨"adjust_frames", .value (.bool true)⟩,
    ⟨"suppress_logs", .value (.bool false)⟩, ⟨"return_file_paths_only", .value (.bool true)⟩,
    ⟨"enable_sequence_shard", .value .null⟩, ⟨"diffusers_kwargs", .value .null⟩,
    ⟨"max_sequence_length", .value .null⟩, ⟨"flow_shift", .value .null⟩,
    ⟨"use_duration_template", .value .null⟩, ⟨"use_resolution_template", .value .null⟩,
    ⟨"use_system_prompt", .value .null⟩, ⟨"use_guardrails", .value .null⟩,
    ⟨"use_pe", .value .null⟩]

/-- `_SAMPLING_PARAMS_EXCLUDE_FIELDS`. -/
def excludeFields : List String := ["data_type", "supported_resolutions", "teacache_params"]

/-- The fields that subclasses of `SamplingParams` (one per model) add. -/
def subclassFields : List String :=
  ["guidance_interval", "shape_num_inference_steps", "paint_guidance_scale",
    "paint_num_inference_steps", "distilled_lora_strength_stage_1",
    "distilled_lora_strength_stage_2", "video_stg_blocks", "audio_modality_scale",
    "video_modality_scale", "audio_rescale_scale", "video_stg_scale", "video_cfg_scale",
    "video_skip_step", "audio_cfg_scale", "audio_stg_scale", "video_rescale_scale",
    "audio_skip_step", "audio_stg_blocks", "skip_v2a_cross_attn_for_video_gt", "generate_audio",
    "audio_shift", "visual_shift", "sigma_shift", "cfg_normalize", "use_en_prompt"]

end SamplingParams

/-- An instance of `SamplingParams` or of a subclass: its values for the fields of the base class,
    and the fields the subclass adds. -/
structure SamplingParams where
  values : String → Value
  subclass : Dict String Value
  known : ∀ name ∈ subclass.keys, name ∈ SamplingParams.subclassFields

/-- A `Req`: `values` has its dataclass fields except `sampling_params`, `extra` and `generator`, of
    which only whether there is one matters here. -/
structure Req where
  values : String → Value
  samplingParams : SamplingParams
  extra : Dict String Value
  generator : Bool

/-- The two results of `extract_transfer_fields`. -/
structure TransferFields where
  tensors : Dict String Value
  scalars : Dict String Json

namespace Value

def isNone : Value → Bool
  | .json j => j.isNull
  | _ => false

def isTensorLike : Value → Bool
  | .json _ => false
  | _ => true

def toJsonSerializable (torch : Torch) : Value → Json
  | .json j => j
  | .tensor t => torch.tolist t
  | .tensors first rest => .list ((first :: rest).map torch.tolist)

/-- `bool(value == c)` for a scalar `c`. A tensor compares element by element with a number, and
    the result has a truth value only if there is one element; it equals no other scalar. -/
def equals (torch : Torch) : Value → Json → Except PyError Bool
  | .json j, c => .ok (j.eqScalar c)
  | .tensor t, c =>
    if c.number.isNone then .ok false
    else if t.shape.prod = 1 then .ok (torch.elementEq t c)
    else if t.shape.prod = 0 then
      .error (.runtimeError "Boolean value of Tensor with no values is ambiguous")
    else .error (.runtimeError "Boolean value of Tensor with more than one value is ambiguous")
  | .tensors _ _, _ => .ok false

/-- `isinstance(value, (list, dict)) and len(value) == 0`. -/
def isEmptyContainer : Value → Bool
  | .json (.list []) => true
  | .json (.obj []) => true
  | _ => false

def isDefault (torch : Torch) (v : Value) : Default → Except PyError Bool
  | .value c => v.equals torch c
  | .listFactory => .ok v.isEmptyContainer
  | .factory => .ok v.isEmptyContainer

end Value

/-! ## Sending -/

/-- `key.startswith(start)`. -/
def startsWith (start key : String) : Bool := start.toList.isPrefixOf key.toList

/-- The `_extra_` prefix of the keys under which entries of `req.extra` travel. -/
def extraKey (key : String) : String := "_extra_" ++ key

/-- `_extract_extra_fields`: `json.dumps` refuses exactly the entries with tensors. -/
def extractExtraFields (extra : Dict String Value) (scalars : Dict String Json) : Dict String Json :=
  extra.entries.foldl (fun scalars (e : String × Value) =>
    if startsWith "_" e.1 then scalars
    else match e.2 with
      | .json j => scalars.set (extraKey e.1) j
      | _ => scalars) scalars

variable (torch : Torch) (scalars : Dict String Json)

def extractReqField (req : Req) (acc : TransferFields) (f : DataclassField) :
    Except PyError TransferFields :=
  let value := req.values f.name
  if f.name ∈ Req.excludeFields then .ok acc
  else if value.isNone then .ok acc
  else do
    if ← value.isDefault torch f.default then return acc
    if value.isTensorLike then return { acc with tensors := acc.tensors.set f.name value }
    return { acc with scalars := acc.scalars.set f.name (value.toJsonSerializable torch) }

namespace SamplingParams

/-- `_BASE_SP_DEFAULTS.get(name)`. -/
def baseDefault (name : String) : Option Json :=
  match fields.find? (fun f => f.name = name) with
  | some ⟨_, .value c⟩ => some c
  | _ => none

/-- `dataclasses.fields(sp)` with the value of each. -/
def entries (sp : SamplingParams) : List (String × Value) :=
  fields.map (fun f => (f.name, sp.values f.name)) ++ sp.subclass.entries

end SamplingParams

def extractSpField (e : String × Value) : Except PyError (Dict String Json) :=
  if e.1 ∈ SamplingParams.excludeFields then .ok scalars
  else if scalars.contains e.1 then .ok scalars
  else if e.2.isNone then .ok scalars
  else do
    -- a field that only a subclass has is always sent
    let isDefault ← match SamplingParams.baseDefault e.1 with
      | some c => e.2.equals torch c
      | none => .ok false
    if isDefault then return scalars
    return scalars.set e.1 (e.2.toJsonSerializable torch)

def extractTransferFields (req : Req) : Except PyError TransferFields := do
  let acc ← Req.fields.foldlM (extractReqField torch req) ⟨.empty, .empty⟩
  let scalars := extractExtraFields req.extra acc.scalars
  let scalars ← req.samplingParams.entries.foldlM (extractSpField torch) scalars
  let seed := req.samplingParams.values "seed"
  let scalars :=
    if req.generator && !seed.isNone then scalars.set "seed" (seed.toJsonSerializable torch)
    else scalars
  return ⟨acc.tensors, scalars⟩

/-! ## Rebuilding -/

namespace Default

def init : Default → Value
  | .value j => .json j
  | .listFactory => .json (.list [])
  | .factory => .json (.obj [])

end Default

def initial (fields : List DataclassField) (name : String) : Value :=
  match fields.find? (fun f => f.name = name) with
  | some f => f.default.init
  | none => .json .null

namespace SamplingParams

/-- `SamplingParams()`: `__post_init__` turns the default `output_quality` of a video into
    `output_compression`. -/
def new : SamplingParams where
  values name := if name = "output_compression" then .json (.int 50) else initial fields name
  subclass := .empty
  known := by simp [Dict.keys, Dict.empty]

end SamplingParams

namespace Req

/-- The request `_build_disagg_req` starts from. -/
def new : Req := ⟨initial fields, .new, .empty, false⟩

/-- `req.<name> = value` on a request whose sampling parameters are of the base class. A name that
    neither class has becomes an attribute that no field reads. -/
def setattr (req : Req) (name : String) (value : Value) : Req :=
  if name ∈ fields.map DataclassField.name then
    { req with values := Function.update req.values name value }
  else if name ∈ SamplingParams.fields.map DataclassField.name then
    { req with samplingParams :=
        { req.samplingParams with values := Function.update req.samplingParams.values name value } }
  else req

/-- `setattr(req, key, value)` for one entry after the other. -/
def setattrs (req : Req) (entries : List (String × Value)) : Req :=
  entries.foldl (fun req e => req.setattr e.1 e.2) req

/-- `req.generator = …`. -/
def withGenerator (req : Req) (generator : Bool) : Req := { req with generator := generator }

/-- `value > bound` in a condition. -/
def greater (torch : Torch) (value : Value) (bound : ℚ) : Except PyError Bool :=
  match value with
  | .json j =>
    match j.number with
    | some q => .ok (decide (bound < q))
    | none => .error (.typeError "'>' not supported between instances")
  | .tensor t =>
    if t.shape.prod = 1 then .ok (torch.elementGt t bound)
    else .error (.runtimeError "Boolean value of Tensor is ambiguous")
  | .tensors _ _ => .error (.typeError "'>' not supported between instances")

def cfgScale (req : Req) : Value :=
  let trueCfgScale := req.samplingParams.values "true_cfg_scale"
  if trueCfgScale.isNone then req.samplingParams.values "guidance_scale" else trueCfgScale

def validate (torch : Torch) (req : Req) : Except PyError Req := do
  let guided ← greater torch req.cfgScale 1
  let req :=
    if guided && !(req.samplingParams.values "negative_prompt").isNone then
      req.setattr "do_classifier_free_guidance" (.json (.bool true))
    else req
  let req :=
    if (req.values "negative_prompt_embeds").isNone then
      req.setattr "negative_prompt_embeds" (.json (.list []))
    else req
  if (req.samplingParams.values "guidance_scale_2").isNone then
    return req.setattr "guidance_scale_2" (req.samplingParams.values "guidance_scale")
  return req

end Req

/-- `int(item)`. -/
def pyInt : Json → Except PyError Int
  | .bool b => .ok (if b then 1 else 0)
  | .int n => .ok n
  | .float q => .ok (if 0 ≤ q then ⌊q⌋ else ⌈q⌉)
  | .str s =>
    match Json.parseInt s with
    | some n => .ok n
    | none => .error (.valueError "invalid literal for int() with base 10")
  | _ => .error (.typeError "int() argument must be a string or a real number")

/-- `torch.Generator(device="cpu").manual_seed(int(item))`, for what it may raise. -/
def manualSeed (item : Json) : Except PyError Unit := do
  let n ← pyInt item
  if -2 ^ 63 ≤ n ∧ n < 2 ^ 64 then return ()
  else throw (.runtimeError "Overflow when unpacking long")

def seedGenerators : Json → Except PyError Unit
  | .list items => items.forM manualSeed
  | seed => manualSeed seed

def rebuildGenerator : Option Json → Except PyError Bool
  | none | some .null => .ok false
  | some seed => (seedGenerators seed).map fun _ => true

/-- Whether a scalar is an entry of `req.extra`. -/
def isExtraKey (key : String) : Bool := startsWith "_extra_" key

/-- `key[len("_extra_"):]`. -/
def stripExtra (key : String) : String := String.ofList (key.toList.drop 7)

/-- The request before it is validated: the defaults, with the `_extra_` scalars restored into
    `extra` and the other scalars and then the tensors assigned. -/
def overlay (tensors : Dict String Value) : Req :=
  let extraEntries := scalars.entries.filter fun e => isExtraKey e.1
  let fieldEntries := scalars.entries.filter fun e => !isExtraKey e.1
  let extra := extraEntries.foldl
    (fun (extra : Dict String Value) e => extra.set (stripExtra e.1) (.json e.2)) .empty
  let req := { Req.new with extra := extra }
  let req := req.setattrs (fieldEntries.map (fun e => (e.1, .json e.2)))
  req.setattrs tensors.entries

def buildDisaggReq (tensors : Dict String Value) :
    Except PyError Req := do
  let generator ← rebuildGenerator (scalars.get? "seed")
  ((overlay scalars tensors).withGenerator generator).validate torch

end Boundary
