import SolInfer.Disagg.Boundary.Sending

set_option autoImplicit false

/-! # What is rebuilt

`_build_disagg_req` assigns what arrived over the defaults, name by name, and validates the
result. -/

namespace Boundary

/-! ## Receiving, field by field -/

variable {name : String}

namespace Req

/-- An assignment reaches the field of its name: that of `Req` if both classes have one. -/
theorem setattr_keyed :
    KeyedPure (fun (req : Req) name => (req.values name, req.samplingParams.values name))
      (Prod.fst : String × Value → String)
      (fun e entry =>
        if e.1 ∈ names fields then (e.2, entry.2)
        else if e.1 ∈ names SamplingParams.fields then (entry.1, e.2)
        else entry)
      (fun req e => req.setattr e.1 e.2) where
  entry req e := by
    unfold setattr
    split
    · simp
    · split <;> simp
  frame req e name hne := by
    unfold setattr
    split
    · simp [Function.update_of_ne hne]
    · split <;> simp [Function.update_of_ne hne]

/-- No assignment reaches `extra` or a field that a subclass of `SamplingParams` adds. -/
theorem setattr_frame (req : Req) (name : String) (v : Value) :
    (req.setattr name v).extra = req.extra ∧
      (req.setattr name v).samplingParams.subclass = req.samplingParams.subclass := by
  unfold setattr
  split
  · exact ⟨rfl, rfl⟩
  · split <;> exact ⟨rfl, rfl⟩

theorem setattrs_frame (req : Req) (l : List (String × Value)) :
    (req.setattrs l).extra = req.extra ∧
      (req.setattrs l).samplingParams.subclass = req.samplingParams.subclass := by
  induction l generalizing req with
  | nil => exact ⟨rfl, rfl⟩
  | cons e rest ih =>
    obtain ⟨hextra, hsubclass⟩ := setattr_frame req e.1 e.2
    exact ⟨(ih _).1.trans hextra, (ih _).2.trans hsubclass⟩

variable {l : List (String × Value)}

section

variable (hnodup : (l.map Prod.fst).Nodup) (req : Req)
include hnodup req

theorem setattrs_entry (name : String) :
    ((req.setattrs l).values name, (req.setattrs l).samplingParams.values name) =
      match Dict.lookup name l with
      | some v =>
        if name ∈ names fields then (v, req.samplingParams.values name)
        else if name ∈ names SamplingParams.fields then (req.values name, v)
        else (req.values name, req.samplingParams.values name)
      | none => (req.values name, req.samplingParams.values name) := by
  cases hl : Dict.lookup name l with
  | none => exact setattr_keyed.foldl_frame l req (Dict.lookup_eq_none.1 hl)
  | some v => exact setattr_keyed.foldl_entry req hnodup (Dict.mem_of_lookup hl)

theorem setattrs_values (hname : name ∈ names fields) :
    (req.setattrs l).values name = (Dict.lookup name l).getD (req.values name) := by
  refine (congrArg Prod.fst (setattrs_entry hnodup req name)).trans ?_
  cases Dict.lookup name l with
  | none => rfl
  | some v => simp only [if_pos hname, Option.getD_some]

theorem setattrs_params (hname : name ∈ names SamplingParams.fields) :
    (req.setattrs l).samplingParams.values name =
      if name ∈ names fields then req.samplingParams.values name
      else (Dict.lookup name l).getD (req.samplingParams.values name) := by
  refine (congrArg Prod.snd (setattrs_entry hnodup req name)).trans ?_
  cases Dict.lookup name l with
  | none => simp
  | some v =>
    by_cases hreq : name ∈ names fields
    · simp only [if_pos hreq]
    · simp only [if_neg hreq, if_pos hname, Option.getD_some]

end

end Req

section Receiving

variable (scalars : Dict String Json) (tensors : Dict String Value)

def fieldEntries : List (String × Value) :=
  (scalars.entries.filter (fun e => !isExtraKey e.1)).map fun e => (e.1, .json e.2)

theorem fieldEntries_nodup : ((fieldEntries scalars).map Prod.fst).Nodup := by
  rw [fieldEntries, List.map_map]
  exact scalars.nodup.sublist (List.Sublist.map _ List.filter_sublist)

theorem lookup_fieldEntries (h : isExtraKey name = false) :
    Dict.lookup name (fieldEntries scalars) = (scalars.get? name).map .json := by
  rw [fieldEntries, Dict.lookup_map, Dict.lookup_filter (fun k => !isExtraKey k), h]
  rfl

theorem overlay_values (hname : name ∈ names Req.fields) :
    (overlay scalars tensors).values name =
      (tensors.get? name).getD
        (((scalars.get? name).map Value.json).getD (initial Req.fields name)) := by
  have hfree := isExtraKey_of_underscore_free
    (underscore_free name (List.mem_append_left _ hname))
  rw [overlay, Req.setattrs_values tensors.nodup _ hname,
    ← fieldEntries, Req.setattrs_values (fieldEntries_nodup scalars) _ hname,
    lookup_fieldEntries scalars hfree]
  rfl

theorem overlay_params (hname : name ∈ names SamplingParams.fields)
    (htensors : tensors.get? name = none) :
    (overlay scalars tensors).samplingParams.values name =
      if name ∈ names Req.fields then SamplingParams.new.values name
      else ((scalars.get? name).map Value.json).getD (SamplingParams.new.values name) := by
  have hfree := isExtraKey_of_underscore_free
    (underscore_free name (List.mem_append_right _ (List.mem_append_left _ hname)))
  rw [overlay, Req.setattrs_params tensors.nodup _ hname, ← fieldEntries,
    Req.setattrs_params (fieldEntries_nodup scalars) _ hname, lookup_fieldEntries scalars hfree,
    show Dict.lookup name tensors.entries = none from htensors]
  split <;> rfl

theorem restoreExtra_keyed :
    KeyedPure (fun (extra : Dict String Value) name => extra.get? name)
      (fun e : String × Json => stripExtra e.1) (fun e _ => some (.json e.2))
      (fun extra e => extra.set (stripExtra e.1) (.json e.2)) where
  entry _ _ := Dict.get?_set_self ..
  frame _ _ _ hne := Dict.get?_set_of_ne _ _ (Ne.symm hne)

theorem overlay_extra (key : String) :
    (overlay scalars tensors).extra.get? key = (scalars.get? (extraKey key)).map .json := by
  have hnodup : ((scalars.entries.filter (fun e => isExtraKey e.1)).map
      (fun e => stripExtra e.1)).Nodup := by
    have hkeys := scalars.nodup.sublist
      (List.Sublist.map Prod.fst (List.filter_sublist (p := fun e => isExtraKey e.1)))
    refine List.Nodup.map_on (fun e₁ he₁ e₂ he₂ he => ?_) hkeys.of_map
    have hkey : e₁.1 = e₂.1 := by
      rw [← extraKey_stripExtra (List.mem_filter.1 he₁).2,
        ← extraKey_stripExtra (List.mem_filter.1 he₂).2, he]
    exact List.inj_on_of_nodup_map hkeys he₁ he₂ hkey
  rw [overlay, (Req.setattrs_frame ..).1, (Req.setattrs_frame ..).1]
  cases hget : scalars.get? (extraKey key) with
  | some j =>
    have hmem : (extraKey key, j) ∈ scalars.entries.filter (fun e => isExtraKey e.1) :=
      List.mem_filter.2 ⟨Dict.mem_entries.2 hget, isExtraKey_extraKey key⟩
    have h := restoreExtra_keyed.foldl_entry Dict.empty hnodup hmem
    rw [stripExtra_extraKey] at h
    exact h
  | none =>
    refine restoreExtra_keyed.foldl_frame _ Dict.empty (fun hmem => ?_)
    obtain ⟨e, he, hkey⟩ := List.mem_map.1 hmem
    rw [List.mem_filter] at he
    have hmem' : (extraKey key, e.2) ∈ scalars.entries := by
      rw [← hkey, extraKey_stripExtra he.2]
      exact he.1
    rw [Dict.mem_entries, hget] at hmem'
    cases hmem'

theorem overlay_subclass : (overlay scalars tensors).samplingParams.subclass = .empty := by
  rw [overlay, (Req.setattrs_frame ..).2, (Req.setattrs_frame ..).2]
  rfl

end Receiving

/-! ## Validation -/

namespace Req

theorem setattr_field (req : Req) (h : name ∈ names fields)
    (v : Value) : req.setattr name v = { req with values := Function.update req.values name v } := by
  rw [setattr, if_pos h]

theorem setattr_param (req : Req) (h : name ∉ names fields)
    (hsp : name ∈ names SamplingParams.fields) (v : Value) :
    req.setattr name v =
      { req with samplingParams :=
          { req.samplingParams with
            values := Function.update req.samplingParams.values name v } } := by
  rw [setattr, if_neg h, if_pos hsp]

/-- What `validate` changes: three fields, one of them by the guidance scale. -/
structure Validated (guided : Bool) (req valid : Req) : Prop where
  extra : valid.extra = req.extra
  subclass : valid.samplingParams.subclass = req.samplingParams.subclass
  values : ∀ name, name ≠ "do_classifier_free_guidance" → name ≠ "negative_prompt_embeds" →
    valid.values name = req.values name
  guidance : valid.values "do_classifier_free_guidance" =
    if guided && !(req.samplingParams.values "negative_prompt").isNone then .json (.bool true)
    else req.values "do_classifier_free_guidance"
  embeds : valid.values "negative_prompt_embeds" =
    if (req.values "negative_prompt_embeds").isNone then .json (.list [])
    else req.values "negative_prompt_embeds"
  params : ∀ name, name ≠ "guidance_scale_2" →
    valid.samplingParams.values name = req.samplingParams.values name
  scale2 : valid.samplingParams.values "guidance_scale_2" =
    if (req.samplingParams.values "guidance_scale_2").isNone then
      req.samplingParams.values "guidance_scale"
    else req.samplingParams.values "guidance_scale_2"

theorem validate_spec (torch : Torch) (req : Req) :
    match greater torch req.cfgScale 1 with
    | .error e => req.validate torch = .error e
    | .ok guided => ∃ valid, req.validate torch = .ok valid ∧ Validated guided req valid := by
  have hcfg : "do_classifier_free_guidance" ∈ names fields :=
    List.mem_of_getElem? (i := 23) rfl
  have hembeds : "negative_prompt_embeds" ∈ names fields :=
    List.mem_of_getElem? (i := 10) rfl
  have hscale' : "guidance_scale_2" ∈ names SamplingParams.fields :=
    List.mem_of_getElem? (i := 28) rfl
  have hscale : "guidance_scale_2" ∉ names fields :=
    fun hmem => absurd (shared_name _ hscale' hmem) (by decide)
  unfold validate
  simp only [setattr_field _ hcfg, setattr_field _ hembeds, setattr_param _ hscale hscale']
  cases greater torch req.cfgScale 1 with
  | error e => rfl
  | ok guided =>
    cases hg : guided && !(req.samplingParams.values "negative_prompt").isNone <;>
    cases he : (req.values "negative_prompt_embeds").isNone <;>
    cases hs : (req.samplingParams.values "guidance_scale_2").isNone <;>
    · simp only [bind, Except.bind, pure, Except.pure, hg, he, hs, if_true, if_false,
        Bool.false_eq_true, ne_eq, String.reduceEq, not_false_eq_true, Function.update_of_ne]
      exact ⟨_, rfl, rfl, rfl, by simp +contextual, by simp [hg], by simp [he], by simp +contextual,
        by simp [hs]⟩

theorem validated_of_validate {torch : Torch} {req valid : Req} {guided : Bool}
    (hguided : greater torch req.cfgScale 1 = .ok guided) (h : req.validate torch = .ok valid) :
    Validated guided req valid := by
  have hspec := validate_spec torch req
  rw [hguided] at hspec
  obtain ⟨valid', hvalid', hvalidated⟩ := hspec
  rw [h] at hvalid'
  cases hvalid'
  exact hvalidated

theorem exists_validate {torch : Torch} {req : Req} {guided : Bool}
    (hguided : greater torch req.cfgScale 1 = .ok guided) :
    ∃ valid, req.validate torch = .ok valid := by
  have hspec := validate_spec torch req
  rw [hguided] at hspec
  obtain ⟨valid, hvalid, _⟩ := hspec
  exact ⟨valid, hvalid⟩

end Req

end Boundary
