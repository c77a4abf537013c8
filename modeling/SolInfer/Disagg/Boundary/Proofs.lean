import SolInfer.Disagg.Boundary.Receiving

set_option autoImplicit false

/-! # What survives the role boundary

A field arrives as it was exactly if it can be `Carried`; a request is preserved exactly if it
`Survives`: every field can be carried, and validation on the receiving side changes nothing. -/

open List

namespace Boundary

/-! ## The condition -/

/-- A value of a field with the given default that can cross the boundary: `None` only where it is
    the default, a tensor only where the comparison with the default has a truth value and says no,
    and no empty dictionary in the place of a list. -/
def Carried (torch : Torch) (v : Value) : Default → Prop
  | .value c =>
    match v with
    | .json j => j.isNull = true → c.isNull = true
    | .tensor t => c.number = none ∨ t.shape.prod = 1 ∧ torch.elementEq t c = false
    | .tensors _ _ => True
  | .listFactory => v ≠ .json .null ∧ v ≠ .json (.obj [])
  | .factory => True

/-- A sampling parameter that can cross the boundary: JSON data, and `None` only where the receiver
    starts from `None`. -/
def ParamCarried (v : Value) (name : String) : Prop :=
  ∃ j, v = .json j ∧ (j.isNull = true → (SamplingParams.new.values name).isNone = true)

/-- **The requests that survive the boundary.** -/
structure Survives (torch : Torch) (req : Req) : Prop where
  fields : ∀ f ∈ Req.fields, f.name ∉ Req.excludeFields → Carried torch (req.values f.name) f.default
  /-- `validate` replaces `None` embeddings. -/
  embeds : (req.values "negative_prompt_embeds").isNone = false
  params : ∀ f ∈ SamplingParams.fields, f.name ∉ SamplingParams.excludeFields →
    ParamCarried (req.samplingParams.values f.name) f.name
  /-- The receiver rebuilds an instance of the base class. -/
  subclass : SubclassUnset req
  /-- Both classes have the name, and the assignment reaches `Req`. -/
  maxSequenceLength : req.samplingParams.values "max_sequence_length" = .json .null
  /-- `validate` replaces `None` by `guidance_scale`. -/
  scale2 : (req.samplingParams.values "guidance_scale_2").isNone = false
  /-- `validate` compares the scale with `1.0` and may switch guidance on. -/
  guidance : ∃ q, req.cfgScale.number = some q ∧
    (1 < q → (req.values "do_classifier_free_guidance").number = some 1)
  seed : ∀ j, req.samplingParams.values "seed" = .json j → seedGenerators j = .ok ()

/-- Every field and extra entry that is meant to be transferred has the same value in `rebuilt`. -/
structure Kept (req rebuilt : Req) : Prop where
  fields : ∀ f ∈ Req.fields, f.name ∉ Req.excludeFields → (req.values f.name).Same (rebuilt.values f.name)
  params : ∀ f ∈ SamplingParams.fields, f.name ∉ SamplingParams.excludeFields →
    (req.samplingParams.values f.name).Same (rebuilt.samplingParams.values f.name)
  /-- The fields of a subclass, read as `getattr(sampling_params, name, None)`. -/
  subclass : ∀ name v, req.samplingParams.subclass.get? name = some v →
    v.Same ((rebuilt.samplingParams.subclass.get? name).getD (.json .null))
  extra : ∀ key j, req.extra.get? key = some (.json j) → startsWith "_" key = false →
    rebuilt.extra.get? key = some (.json j)

/-- The request crosses the boundary, and what arrives is what was sent off. -/
def Preserved (torch : Torch) (req : Req) : Prop :=
  ∃ tf rebuilt, extractTransferFields torch req = .ok tf ∧
    buildDisaggReq torch tf.scalars tf.tensors = .ok rebuilt ∧ Kept req rebuilt

/-! ## One field of the request -/

variable {j : Json}

section FieldArrival

variable {torch : Torch} {req : Req} {f : DataclassField}

def FieldCarried (torch : Torch) (req : Req) (f : DataclassField) : Prop :=
  Carried torch (req.values f.name) f.default

/-- The value a field has on arrival, if `o` of it was sent. -/
def arrived (f : DataclassField) (o : Option Value) : Value :=
  (place (none, none) o).1.getD (((place (none, none) o).2.map .json).getD f.default.init)

theorem arrived_some (v : Value) : arrived f (some v) = v := by
  cases v <;> rfl

theorem arrived_none : arrived f none = f.default.init := rfl

theorem toJsonSerializable_not_null {w : Value} (h : w.isNone = false) :
    (w.toJsonSerializable torch).isNull = false := by
  cases w with
  | json j => exact h
  | tensor t => exact torch.tolist_not_null t
  | tensors t ts => rfl

theorem equals_null {v : Value} (h : v.isNone = false) : v.equals torch .null = .ok false := by
  cases v with
  | json j => exact congrArg Except.ok (Json.eqScalar_null h)
  | _ => rfl

theorem carried_iff_of_tensorLike {v : Value} (hv : v.isTensorLike = true) (d : Default) :
    Carried torch v d ↔ v.isDefault torch d = .ok false := by
  cases v with
  | json j => cases hv
  | tensors t ts => cases d <;> simp [Carried, Value.isDefault, Value.equals, Value.isEmptyContainer]
  | tensor t =>
    cases d with
    | value c =>
      simp only [Carried, Value.isDefault, Value.equals, Option.isNone_iff_eq_none]
      split_ifs with hnum hone hempty <;> simp [*]
    | _ => simp [Carried, Value.isDefault, Value.isEmptyContainer]

theorem carried_of_set (h : j.isNull = false) (c : Json) : Carried torch (.json j) (.value c) :=
  fun hnull => nomatch h.symm.trans hnull

theorem isDefault_of_carried (hdefault : Carried torch (req.values f.name) f.default) :
    ∃ b, (req.values f.name).isDefault torch f.default = .ok b := by
  cases hv : req.values f.name with
  | json j => cases f.default <;> exact ⟨_, rfl⟩
  | _ => exact ⟨_, (carried_iff_of_tensorLike rfl _).1 (hv ▸ hdefault)⟩

theorem sentField_of_carried (hdefault : Carried torch (req.values f.name) f.default) :
    ∃ o, sentField torch req f = .ok o := by
  obtain ⟨b, hb⟩ := isDefault_of_carried hdefault
  simp only [sentField, hb]
  split <;> exact ⟨_, rfl⟩

theorem sentField_cases (hex : f.name ∉ Req.excludeFields) {o : Option Value}
    (h : sentField torch req f = .ok o) :
    (req.values f.name = .json .null ∧ o = none) ∨
    ((req.values f.name).isNone = false ∧
      (req.values f.name).isDefault torch f.default = .ok true ∧ o = none) ∨
    ((req.values f.name).isNone = false ∧
      (req.values f.name).isDefault torch f.default = .ok false ∧ o = some (req.values f.name)) := by
  simp only [sentField, hex, false_or] at h
  cases hnone : (req.values f.name).isNone with
  | true =>
    rw [hnone, if_pos rfl] at h
    exact .inl ⟨Value.isNone_iff.1 hnone, (Except.ok.inj h).symm⟩
  | false =>
    rw [hnone, if_neg Bool.false_ne_true] at h
    obtain ⟨b, hd, rfl⟩ := Except.map_eq_ok.1 h
    cases b
    · exact .inr (.inr ⟨rfl, hd, rfl⟩)
    · exact .inr (.inl ⟨rfl, hd, rfl⟩)

theorem unset_same_iff (hf : f ∈ Req.fields) (hex : f.name ∉ Req.excludeFields)
    (hv : req.values f.name = .json .null) :
    (req.values f.name).Same (arrived f none) ↔ FieldCarried torch req f := by
  have hsame : ∀ v : Value, (Value.json .null).Same v ↔ v.isNone = true := fun v =>
    ⟨fun h => h.isNone_eq ▸ rfl, fun h => .inl (Value.isNone_iff.1 h).symm⟩
  have hfac := Req.factory_excluded f hf hex
  unfold FieldCarried
  rw [hv, arrived_none, hsame]
  cases hd : f.default with
  | value c => simp [Carried, Default.init, Value.isNone, Json.isNull]
  | listFactory => simp [Carried, Default.init, Value.isNone, Json.isNull]
  | factory => rw [hd] at hfac; cases hfac

theorem default_same_iff (hf : f ∈ Req.fields) (hex : f.name ∉ Req.excludeFields)
    (hv : (req.values f.name).isNone = false)
    (hdef : (req.values f.name).isDefault torch f.default = .ok true) :
    (req.values f.name).Same (arrived f none) ↔ FieldCarried torch req f := by
  have hfac := Req.factory_excluded f hf hex
  rw [arrived_none]
  unfold FieldCarried
  by_cases htensor : (req.values f.name).isTensorLike
  · -- equal to its default as a tensor; what arrives is JSON
    refine iff_of_false (fun h => ?_) fun h => ?_
    · have := h.isTensorLike_eq.symm.trans htensor
      cases hd : f.default <;> simp_all [Value.isTensorLike, Default.init]
    · cases hdef.symm.trans ((carried_iff_of_tensorLike htensor _).1 h)
  cases hval : req.values f.name with
  | tensors t ts => rw [hval] at htensor; exact absurd rfl htensor
  | tensor t => rw [hval] at htensor; exact absurd rfl htensor
  | json j =>
    rw [hval] at hv hdef
    cases hd : f.default with
    | value c =>
      rw [hd] at hdef
      have hsame := Value.same_of_eqScalar (Except.ok.inj hdef)
      have hnull : j.isNull = false := hv
      simpa [Carried, Default.init, hnull] using hsame
    | listFactory =>
      rw [hd] at hdef
      have hempty : j = .list [] ∨ j = .obj [] := by
        cases j with
        | list l => cases l <;> simp_all [Value.isDefault, Value.isEmptyContainer]
        | obj l => cases l <;> simp_all [Value.isDefault, Value.isEmptyContainer]
        | _ => simp [Value.isDefault, Value.isEmptyContainer] at hdef
      rcases hempty with rfl | rfl <;>
        simp [Carried, Default.init, Value.Same, Value.number, Json.number]
    | factory => rw [hd] at hfac; cases hfac

theorem sent_same_iff (hv : (req.values f.name).isNone = false)
    (hdef : (req.values f.name).isDefault torch f.default = .ok false) :
    (req.values f.name).Same (arrived f (some (req.values f.name))) ↔ FieldCarried torch req f := by
  rw [arrived_some]
  refine iff_of_true (Value.Same.refl _) ?_
  unfold FieldCarried
  cases hval : req.values f.name with
  | json j =>
    rw [hval] at hv hdef
    cases hd : f.default with
    | value c => exact carried_of_set hv c
    | listFactory =>
      rw [hd] at hdef
      refine ⟨fun hnull => ?_, fun hobj => ?_⟩
      · rw [hnull] at hv; cases hv
      · rw [hobj] at hdef; cases hdef
    | factory => trivial
  | _ => exact (carried_iff_of_tensorLike rfl _).2 (hval ▸ hdef)

/-- **One field**: whatever was sent of it, it arrives as it was exactly if it can be carried. -/
theorem field_same_iff (hf : f ∈ Req.fields) (hex : f.name ∉ Req.excludeFields) {o : Option Value}
    (ho : sentField torch req f = .ok o) :
    (req.values f.name).Same (arrived f o) ↔ FieldCarried torch req f := by
  rcases sentField_cases hex ho with ⟨hv, rfl⟩ | ⟨hv, hdef, rfl⟩ | ⟨hv, hdef, rfl⟩
  · exact unset_same_iff hf hex hv
  · exact default_same_iff hf hex hv hdef
  · exact sent_same_iff hv hdef

end FieldArrival

/-! ## One sampling parameter -/

section ParamArrival

variable {torch : Torch} {v a : Value} {f : DataclassField}

/-- `a` is what the parameter `f` has on arrival if the sender had `v`. -/
def ParamArrived (torch : Torch) (v : Value) (f : DataclassField) (a : Value) : Prop :=
  ∃ o s, sentParam torch (f.name, v) = .ok o ∧
    (s = o ∨ v.isNone = false ∧ s = some (v.toJsonSerializable torch)) ∧
    a = (s.map Value.json).getD (SamplingParams.new.values f.name)

section

variable (hf : f ∈ SamplingParams.fields)
include hf

theorem SamplingParams.default_value (hex : f.name ∉ SamplingParams.excludeFields) :
    ∃ c, f.default = .value c := by
  have h := SamplingParams.factory_excluded f hf hex
  cases hd : f.default with
  | value c => exact ⟨c, rfl⟩
  | _ => rw [hd] at h; cases h

/-- The receiver starts from the declared default, `output_compression` apart. -/
theorem SamplingParams.new_values {c : Json} (hc : f.default = .value c) :
    SamplingParams.new.values f.name = .json c ∨
      c = .null ∧ SamplingParams.new.values f.name = .json (.int 50) := by
  simp only [SamplingParams.new]
  split
  next hname =>
    have hd : f.default = .value .null :=
      default_of_find? SamplingParams.nodup_fieldNames hf hname (by rfl)
    rw [hc] at hd
    exact .inr ⟨Default.value.inj hd, rfl⟩
  · refine .inl ?_
    rw [initial_eq SamplingParams.nodup_fieldNames hf, hc]
    rfl

theorem sentParam_eq (hex : f.name ∉ SamplingParams.excludeFields) {c : Json}
    (hc : f.default = .value c) :
    sentParam torch (f.name, v) =
      if v.isNone then .ok none
      else (v.equals torch c).map
        (fun isDefault => if isDefault then none else some (v.toJsonSerializable torch)) := by
  simp only [sentParam, hex, false_or, SamplingParams.baseDefault_eq hf hc]

theorem sentParam_of_carried (h : f.name ∉ SamplingParams.excludeFields → ParamCarried v f.name) :
    ∃ o, sentParam torch (f.name, v) = .ok o := by
  by_cases hex : f.name ∈ SamplingParams.excludeFields
  · exact ⟨none, by simp [sentParam, hex]⟩
  · obtain ⟨c, hc⟩ := SamplingParams.default_value hf hex
    obtain ⟨j, rfl, _⟩ := h hex
    rw [sentParam_eq hf hex hc]
    split <;> exact ⟨_, rfl⟩

end

section

variable (hf : f ∈ SamplingParams.fields) (hex : f.name ∉ SamplingParams.excludeFields)
include hf hex

theorem sentParam_cases {o s : Option Json} (ho : sentParam torch (f.name, v) = .ok o)
    (hs : s = o ∨ v.isNone = false ∧ s = some (v.toJsonSerializable torch)) :
    (v.isNone = true ∧ s = none) ∨
    (v.isNone = false ∧ (s = some (v.toJsonSerializable torch) ∨
      s = none ∧ ∃ c, f.default = .value c ∧ v.equals torch c = .ok true)) := by
  obtain ⟨c, hc⟩ := SamplingParams.default_value hf hex
  rw [sentParam_eq hf hex hc] at ho
  rcases hs with rfl | ⟨hv, hs⟩
  · cases hv : v.isNone with
    | true =>
      rw [hv, if_pos rfl] at ho
      exact .inl ⟨rfl, (Except.ok.inj ho).symm⟩
    | false =>
      rw [hv, if_neg Bool.false_ne_true] at ho
      obtain ⟨b, heq, rfl⟩ := Except.map_eq_ok.1 ho
      cases b with
      | false => exact .inr ⟨rfl, .inl rfl⟩
      | true => exact .inr ⟨rfl, .inr ⟨rfl, c, hc, heq⟩⟩
  · exact .inr ⟨hv, .inl hs⟩

variable (h : ParamArrived torch v f a)
include h

theorem ParamArrived.cases :
    (v.isNone = true ∧ a = SamplingParams.new.values f.name) ∨
    (v.isNone = false ∧ (a = .json (v.toJsonSerializable torch) ∨
      ∃ c, c.isNull = false ∧ v.equals torch c = .ok true ∧ a = .json c)) := by
  obtain ⟨o, s, ho, hs, rfl⟩ := h
  rcases sentParam_cases hf hex ho hs with ⟨hv, rfl⟩ | ⟨hv, rfl | ⟨rfl, c, hc, heq⟩⟩
  · exact .inl ⟨hv, rfl⟩
  · exact .inr ⟨hv, .inl rfl⟩
  · have hset : c ≠ .null := by
      rintro rfl
      cases heq.symm.trans (equals_null hv)
    rcases SamplingParams.new_values hf hc with hn | ⟨hnull, _⟩
    · exact .inr ⟨hv, .inr ⟨c, by simpa [← Json.isNull_iff] using hset, heq, hn⟩⟩
    · exact absurd hnull hset

theorem ParamArrived.not_tensorLike : a.isTensorLike = false := by
  rcases h.cases hf hex with ⟨_, rfl⟩ | ⟨_, rfl | ⟨c, _, _, rfl⟩⟩
  · obtain ⟨c, hc⟩ := SamplingParams.default_value hf hex
    rcases SamplingParams.new_values hf hc with hn | ⟨_, hn⟩ <;> rw [hn] <;> rfl
  · rfl
  · rfl

theorem ParamArrived.isNone (ha : a.isNone = true) :
    v.isNone = true ∧ (SamplingParams.new.values f.name).isNone = true := by
  rcases h.cases hf hex with ⟨hv, rfl⟩ | ⟨hv, rfl | ⟨c, hc, _, rfl⟩⟩
  · exact ⟨hv, ha⟩
  · cases ha.symm.trans (toJsonSerializable_not_null hv)
  · cases ha.symm.trans hc

/-- **One sampling parameter** arrives as it was exactly if it can be carried. -/
theorem ParamArrived.same_iff : v.Same a ↔ ParamCarried v f.name := by
  constructor
  · intro hsame
    have hjson := hsame.isTensorLike_eq.trans (h.not_tensorLike hf hex)
    cases v with
    | tensor t => cases hjson
    | tensors t ts => cases hjson
    | json j =>
      refine ⟨j, rfl, fun hnull => ?_⟩
      exact (h.isNone hf hex (hsame.isNone_eq ▸ hnull)).2
  · rintro ⟨j, rfl, hnull⟩
    rcases h.cases hf hex with ⟨hj, rfl⟩ | ⟨_, rfl | ⟨c, _, heq, rfl⟩⟩
    · rw [Value.isNone_iff.1 hj]
      exact .inl (Value.isNone_iff.1 (hnull hj)).symm
    · exact Value.Same.refl _
    · exact Value.same_of_eqScalar (Except.ok.inj heq)

end

end ParamArrival

/-! ## The whole request -/

section Crossing

variable {torch : Torch} {req : Req}

def ParamsCarried (req : Req) : Prop :=
  ∀ f ∈ SamplingParams.fields, f.name ∉ SamplingParams.excludeFields →
    ParamCarried (req.samplingParams.values f.name) f.name

/-- A request before validation in which every field is what arrives of the sender's. -/
structure Arrival (torch : Torch) (req received : Req) : Prop where
  fields : ∀ f ∈ Req.fields, f.name ∉ Req.excludeFields →
    ∃ o, sentField torch req f = .ok o ∧ received.values f.name = arrived f o
  params : ∀ f ∈ SamplingParams.fields, f.name ∉ SamplingParams.excludeFields →
    f.name ≠ "max_sequence_length" →
    ParamArrived torch (req.samplingParams.values f.name) f (received.samplingParams.values f.name)
  shared : received.samplingParams.values "max_sequence_length" = .json .null
  extra : ∀ key j, req.extra.get? key = some (.json j) → startsWith "_" key = false →
    received.extra.get? key = some (.json j)

theorem overlay_arrival {tf : TransferFields} (h : Sent torch req tf) (hunset : SubclassUnset req)
    (generator : Bool) :
    Arrival torch req ((overlay tf.scalars tf.tensors).withGenerator generator) := by
  refine ⟨fun f hf hex => ?_, fun f hf hex hne => ?_, ?_, fun key j hget hfree => ?_⟩
  · obtain ⟨o, ho, htensors, hscalars⟩ := h.tensors f hf
    refine ⟨o, ho, ?_⟩
    refine (overlay_values tf.scalars tf.tensors (mem_map_of_mem hf)).trans ?_
    rw [htensors, hscalars hex, shadow_eq_none hunset, Option.or_none, initial_eq Req.nodup_names hf]
    rfl
  · have hreq : f.name ∉ names Req.fields :=
      fun hmem => hne (shared_name _ (mem_map_of_mem hf) hmem)
    obtain ⟨o, ho, hscalars⟩ := h.params f hf hreq
    refine ⟨o, tf.scalars.get? f.name, ho, hscalars, ?_⟩
    refine (overlay_params _ _ (mem_map_of_mem hf) (h.others _ hreq)).trans ?_
    rw [if_neg hreq]
  · have hmem : "max_sequence_length" ∈ names Req.fields :=
      mem_of_getElem? (i := 21) rfl
    have hmem' : "max_sequence_length" ∈ names SamplingParams.fields :=
      mem_of_getElem? (i := 59) rfl
    obtain ⟨f, hf, hname⟩ := mem_map.1 hmem
    -- the field is excluded, so no tensor of that name travels
    obtain ⟨o, ho, htensors, _⟩ := h.tensors f hf
    have hex : f.name ∈ Req.excludeFields := hname ▸ max_sequence_length_excluded
    simp only [sentField, hex, true_or, if_true, Except.ok.injEq] at ho
    subst ho
    rw [hname] at htensors
    refine (overlay_params _ _ hmem' htensors).trans ?_
    rfl
  · refine (overlay_extra _ _ key).trans ?_
    rw [h.extra, hfree, hget]
    rfl

namespace Arrival

variable {received : Req}

section

variable (h : Arrival torch req received) (name : String)
  (hname : name ∈ names SamplingParams.fields)
  (hex : name ∉ SamplingParams.excludeFields) (hne : name ≠ "max_sequence_length")
include h name hname hex hne

theorem param :
    ∃ f ∈ SamplingParams.fields, f.name = name ∧
      ParamArrived torch (req.samplingParams.values name) f
        (received.samplingParams.values name) := by
  obtain ⟨f, hf, rfl⟩ := mem_map.1 hname
  exact ⟨f, hf, rfl, h.params f hf hex hne⟩

theorem param_set (hdefault : (SamplingParams.new.values name).isNone = false) :
    (received.samplingParams.values name).isNone = false := by
  obtain ⟨f, hf, rfl, harr⟩ := h.param name hname hex hne
  by_contra hnone
  rw [Bool.not_eq_false] at hnone
  rw [(harr.isNone hf hex hnone).2] at hdefault
  cases hdefault

end

end Arrival

theorem greater_eq_ok {v : Value} (hv : v.isTensorLike = false) {bound : ℚ} {b : Bool} :
    Req.greater torch v bound = .ok b ↔ ∃ q, v.number = some q ∧ b = decide (bound < q) := by
  cases v with
  | tensor t => cases hv
  | tensors t ts => cases hv
  | json j =>
    simp only [Req.greater, Value.number]
    cases j.number with
    | none => simp
    | some q => simp [eq_comm]

theorem cfgScale_eq {a b : Req} (htrue : (a.samplingParams.values "true_cfg_scale").Same
      (b.samplingParams.values "true_cfg_scale"))
    (hscale : (a.samplingParams.values "guidance_scale").Same
      (b.samplingParams.values "guidance_scale")) : a.cfgScale.Same b.cfgScale := by
  simp only [Req.cfgScale, htrue.isNone_eq]
  split
  · exact hscale
  · exact htrue

theorem seedGenerators_default (h : j.eqScalar (.int 42) = true) : seedGenerators j = .ok () := by
  cases j with
  | bool b => cases b <;> simp [Json.eqScalar, Json.number] at h
  | int n =>
    have hn : (n : ℚ) = 42 := by simpa [Json.eqScalar, Json.number] using h
    obtain rfl : n = 42 := by exact_mod_cast hn
    rfl
  | float q =>
    have hq : q = 42 := by simpa [Json.eqScalar, Json.number] using h
    subst hq
    simp [seedGenerators, manualSeed, pyInt, bind, Except.bind, pure, Except.pure]
  | _ => simp [Json.eqScalar, Json.number] at h

variable {received valid : Req} {guided : Bool} {f : DataclassField}

theorem params_carried (harr : Arrival torch req received)
    (hvalid : Req.Validated guided received valid) (hkept : Kept req valid) :
    ParamsCarried req ∧
    req.samplingParams.values "max_sequence_length" = .json .null ∧
    (req.samplingParams.values "guidance_scale_2").isNone = false := by
  have hscale := harr.param_set "guidance_scale" (mem_of_getElem? (i := 27) rfl) (by decide)
    (by decide) rfl
  have hscale2 : (received.samplingParams.values "guidance_scale_2").isNone = false ∧
      (req.samplingParams.values "guidance_scale_2").Same
        (received.samplingParams.values "guidance_scale_2") := by
    obtain ⟨f, hf, hname, harr2⟩ := harr.param "guidance_scale_2"
      (mem_of_getElem? (i := 28) rfl) (by decide) (by decide)
    have hex : f.name ∉ SamplingParams.excludeFields := by rw [hname]; decide
    have hsame := hkept.params f hf hex
    rw [hname, hvalid.scale2] at hsame
    cases hnone : (received.samplingParams.values "guidance_scale_2").isNone with
    | false =>
      rw [hnone] at hsame
      exact ⟨rfl, hsame⟩
    | true =>
      -- the sender's is unset too, and would have become the guidance scale
      rw [hnone, if_pos rfl] at hsame
      have hunset := hsame.isNone_eq
      rw [(harr2.isNone hf hex hnone).1, hscale] at hunset
      cases hunset
  have hmax : req.samplingParams.values "max_sequence_length" = .json .null := by
    obtain ⟨f, hf, hname⟩ := mem_map.1
      (mem_of_getElem? (i := 59) rfl :
        "max_sequence_length" ∈ names SamplingParams.fields)
    have hsame := hkept.params f hf (by rw [hname]; decide)
    rw [hname, hvalid.params _ (by decide), harr.shared] at hsame
    exact Value.isNone_iff.1 hsame.isNone_eq
  refine ⟨fun f hf hex => ?_, hmax, hscale2.2.isNone_eq.trans hscale2.1⟩
  by_cases hshared : f.name = "max_sequence_length"
  · rw [hshared, hmax]
    exact ⟨.null, rfl, fun _ => rfl⟩
  · refine ((harr.params f hf hex hshared).same_iff hf hex).1 ?_
    by_cases hname : f.name = "guidance_scale_2"
    · rw [hname]
      exact hscale2.2
    · rw [← hvalid.params _ hname]
      exact hkept.params f hf hex

section

variable (harr : Arrival torch req received)
  (hparams : ParamsCarried req)
include harr hparams

theorem Arrival.param_same (name : String)
    (hname : name ∈ names SamplingParams.fields)
    (hex : name ∉ SamplingParams.excludeFields) (hne : name ≠ "max_sequence_length") :
    (req.samplingParams.values name).Same (received.samplingParams.values name) := by
  obtain ⟨f, hf, rfl, h⟩ := harr.param name hname hex hne
  exact (h.same_iff hf hex).2 (hparams f hf hex)

/-- The guidance scale decides on both sides alike, and only a number decides at all. -/
theorem Arrival.guided_iff {guided : Bool} :
    Req.greater torch received.cfgScale 1 = .ok guided ↔
      ∃ q, req.cfgScale.number = some q ∧ guided = decide (1 < q) := by
  have hsame : req.cfgScale.Same received.cfgScale :=
    cfgScale_eq (harr.param_same hparams _ (mem_of_getElem? (i := 29) rfl) (by decide) (by decide))
      (harr.param_same hparams _ (mem_of_getElem? (i := 27) rfl) (by decide) (by decide))
  have hjson : received.cfgScale.isTensorLike = false := by
    obtain ⟨f, hf, hname, h⟩ := harr.param "true_cfg_scale"
      (mem_of_getElem? (i := 29) rfl) (by decide) (by decide)
    obtain ⟨g, hg, hname', h'⟩ := harr.param "guidance_scale"
      (mem_of_getElem? (i := 27) rfl) (by decide) (by decide)
    simp only [Req.cfgScale]
    split
    · exact h'.not_tensorLike hg (by rw [hname']; decide)
    · exact h.not_tensorLike hf (by rw [hname]; decide)
  rw [greater_eq_ok hjson, hsame.number_eq]

end

theorem Arrival.negative_prompt_set (harr : Arrival torch req received) :
    (received.samplingParams.values "negative_prompt").isNone = false :=
  harr.param_set _ (mem_of_getElem? (i := 4) rfl) (by decide) (by decide) rfl

theorem same_true_iff {v : Value} : v.Same (.json (.bool true)) ↔ v.number = some 1 := by
  constructor
  · intro h
    rw [h.number_eq]
    rfl
  · intro h
    exact .inr ⟨1, h, rfl⟩

section

variable (harr : Arrival torch req received) (hvalid : Req.Validated guided received valid)
include harr hvalid

theorem guidance_same_iff (hf : f ∈ Req.fields) (hname : f.name = "do_classifier_free_guidance") :
    (req.values f.name).Same (valid.values f.name) ↔
      FieldCarried torch req f ∧ (guided = true → (req.values f.name).number = some 1) := by
  have hex : f.name ∉ Req.excludeFields := by rw [hname]; decide
  obtain ⟨o, ho, harrived⟩ := harr.fields f hf hex
  have hd : f.default = .value (.bool false) := default_of_find? Req.nodup_names hf hname (by rfl)
  have hval : valid.values f.name =
      if guided then .json (.bool true) else received.values f.name := by
    rw [hname, hvalid.guidance, harr.negative_prompt_set, Bool.not_false, Bool.and_true]
  rw [hval]
  cases guided with
  | false => simp [harrived, field_same_iff hf hex ho]
  | true =>
    rw [if_pos rfl, same_true_iff]
    refine ⟨fun h => ⟨?_, fun _ => h⟩, fun h => h.2 rfl⟩
    -- a number is JSON data other than `None`
    have hnone := Value.isNone_of_number h
    rw [FieldCarried, hd]
    cases hv : req.values f.name with
    | json j => rw [hv] at hnone; exact carried_of_set hnone _
    | tensor t => rw [hv] at h; cases h
    | tensors t ts => trivial

theorem embeds_same_iff (hf : f ∈ Req.fields) (hname : f.name = "negative_prompt_embeds") :
    (req.values f.name).Same (valid.values f.name) ↔
      FieldCarried torch req f ∧ (req.values f.name).isNone = false := by
  have hex : f.name ∉ Req.excludeFields := by rw [hname]; decide
  obtain ⟨o, ho, harrived⟩ := harr.fields f hf hex
  have hd : f.default = .value .null := default_of_find? Req.nodup_names hf hname (by rfl)
  have hval : valid.values f.name =
      if (received.values f.name).isNone then .json (.list []) else received.values f.name := by
    rw [hname]
    exact hvalid.embeds
  -- an empty default is equal to `None` only, so anything set is sent
  have hreceived : received.values f.name = req.values f.name := by
    rw [harrived]
    rcases sentField_cases hex ho with ⟨hv, rfl⟩ | ⟨hv, hdef, rfl⟩ | ⟨_, _, rfl⟩
    · rw [arrived_none, hd, hv]
      rfl
    · rw [hd, Value.isDefault, equals_null hv] at hdef
      cases hdef
    · exact arrived_some _
  have hcarried := (field_same_iff hf hex ho).1 (harrived ▸ hreceived ▸ Value.Same.refl _)
  rw [hval, hreceived]
  cases hnone : (req.values f.name).isNone with
  | false => simp [hcarried, Value.Same.refl]
  | true =>
    rw [Value.isNone_iff] at hnone
    simp [hnone, Value.Same, Value.number, Json.number]

theorem valid_same_iff (hf : f ∈ Req.fields) (hex : f.name ∉ Req.excludeFields) :
    (req.values f.name).Same (valid.values f.name) ↔
      FieldCarried torch req f ∧
      (f.name = "negative_prompt_embeds" → (req.values f.name).isNone = false) ∧
      (f.name = "do_classifier_free_guidance" → guided = true → (req.values f.name).number = some 1) := by
  by_cases hguidance : f.name = "do_classifier_free_guidance"
  · rw [guidance_same_iff harr hvalid hf hguidance]
    simp [hguidance]
  by_cases hembeds : f.name = "negative_prompt_embeds"
  · rw [embeds_same_iff harr hvalid hf hembeds]
    simp [hembeds]
  · obtain ⟨o, ho, harrived⟩ := harr.fields f hf hex
    rw [hvalid.values _ hguidance hembeds, harrived, field_same_iff hf hex ho]
    simp [hguidance, hembeds]

theorem fields_same_iff :
    (∀ f ∈ Req.fields, f.name ∉ Req.excludeFields → (req.values f.name).Same (valid.values f.name)) ↔
    (∀ f ∈ Req.fields, f.name ∉ Req.excludeFields → FieldCarried torch req f) ∧
    (req.values "negative_prompt_embeds").isNone = false ∧
    (guided = true → (req.values "do_classifier_free_guidance").number = some 1) := by
  obtain ⟨g, hg, hgname⟩ := mem_map.1
    (mem_of_getElem? (i := 23) rfl :
      "do_classifier_free_guidance" ∈ names Req.fields)
  obtain ⟨e, he, hename⟩ := mem_map.1
    (mem_of_getElem? (i := 10) rfl :
      "negative_prompt_embeds" ∈ names Req.fields)
  have hgex : g.name ∉ Req.excludeFields := by rw [hgname]; decide
  have heex : e.name ∉ Req.excludeFields := by rw [hename]; decide
  constructor
  · intro h
    have hsame f hf hex := (valid_same_iff (f := f) harr hvalid hf hex).1 (h f hf hex)
    exact ⟨fun f hf hex => (hsame f hf hex).1, hename ▸ (hsame e he heex).2.1 hename,
      hgname ▸ (hsame g hg hgex).2.2 hgname⟩
  · rintro ⟨hcarried, hembeds, hguided⟩ f hf hex
    refine (valid_same_iff harr hvalid hf hex).2 ⟨hcarried f hf hex, fun hname => ?_, fun hname => ?_⟩
    · rw [hname]; exact hembeds
    · rw [hname]; exact hguided

theorem params_same (hsurvives : Survives torch req) :
    ∀ f ∈ SamplingParams.fields, f.name ∉ SamplingParams.excludeFields →
      (req.samplingParams.values f.name).Same (valid.samplingParams.values f.name) := by
  intro f hf hex
  by_cases hshared : f.name = "max_sequence_length"
  · rw [hshared, hvalid.params _ (by decide), hsurvives.maxSequenceLength, harr.shared]
    exact Value.Same.refl _
  have hsame := harr.param_same hsurvives.params f.name (mem_map_of_mem hf) hex hshared
  by_cases hname : f.name = "guidance_scale_2"
  · rw [hname] at hsame ⊢
    rw [hvalid.scale2, ← hsame.isNone_eq, hsurvives.scale2]
    exact hsame
  · rw [hvalid.params _ hname]
    exact hsame

end

theorem rebuildGenerator_some (h : j.isNull = false) :
    rebuildGenerator (some j) = (seedGenerators j).map (fun _ => true) := by
  cases j <;> first | rfl | cases h

theorem rebuildGenerator_isOk_iff {tf : TransferFields} (hsent : Sent torch req tf)
    (hparams : ParamsCarried req) :
    (∃ generator, rebuildGenerator (tf.scalars.get? "seed") = .ok generator) ↔
      ∀ j, req.samplingParams.values "seed" = .json j → seedGenerators j = .ok () := by
  obtain ⟨f, hf, hname⟩ := mem_map.1
    (mem_of_getElem? (i := 18) rfl :
        "seed" ∈ names SamplingParams.fields)
  have hex : f.name ∉ SamplingParams.excludeFields := by rw [hname]; decide
  have hd : f.default = .value (.int 42) :=
    default_of_find? SamplingParams.nodup_fieldNames hf hname (by rfl)
  obtain ⟨j, hj, hnull⟩ := hparams f hf hex
  obtain ⟨o, ho, hscalars⟩ := hsent.params f hf (by rw [hname]; exact seed_not_req)
  have hcases := sentParam_cases hf hex ho hscalars
  rw [hj, hname] at hcases
  rw [hname] at hj hnull
  simp only [hj, Value.json.injEq, forall_eq']
  rcases hcases with ⟨hnone, _⟩ | ⟨hset, hget | ⟨hget, c, hc, heq⟩⟩
  · cases hnull hnone
  · rw [hget, Value.toJsonSerializable, rebuildGenerator_some hset]
    cases seedGenerators j <;> simp [Except.map]
  · -- the default seed is not sent, and there is no generator to rebuild
    cases hd.symm.trans hc
    rw [hget]
    exact iff_of_true ⟨false, rfl⟩ (seedGenerators_default (Except.ok.inj heq))

end Crossing

variable {torch : Torch}

theorem buildDisaggReq_eq_ok {scalars : Dict String Json}
    {tensors : Dict String Value} {rebuilt : Req} :
    buildDisaggReq torch scalars tensors = .ok rebuilt ↔
      ∃ generator guided, rebuildGenerator (scalars.get? "seed") = .ok generator ∧
        Req.greater torch ((overlay scalars tensors).withGenerator generator).cfgScale 1 =
          .ok guided ∧
        ((overlay scalars tensors).withGenerator generator).validate torch = .ok rebuilt := by
  unfold buildDisaggReq
  cases rebuildGenerator (scalars.get? "seed") with
  | error e => simp [bind, Except.bind]
  | ok generator =>
    have hspec := Req.validate_spec torch ((overlay scalars tensors).withGenerator generator)
    split at hspec
    next hgreater => simp [bind, Except.bind, hspec, hgreater]
    next hgreater => simp [bind, Except.bind, hgreater]

/-- What is kept of a subclass is that nothing of it is set. -/
theorem subclass_same_iff {req received valid : Req} {guided : Bool}
    (hvalid : Req.Validated guided received valid) (hreceived : received.samplingParams.subclass = .empty) :
    (∀ name v, req.samplingParams.subclass.get? name = some v →
      v.Same ((valid.samplingParams.subclass.get? name).getD (.json .null))) ↔ SubclassUnset req := by
  rw [hvalid.subclass, hreceived]
  refine forall_congr' fun name => forall_congr' fun v => imp_congr_right fun _ => ?_
  constructor
  · intro h
    exact h.isNone_eq
  · intro hnone
    rw [Value.isNone_iff.1 hnone]
    exact Value.Same.refl _

theorem survives_of_preserved {req : Req} (h : Preserved torch req) : Survives torch req := by
  obtain ⟨tf, rebuilt, hextract, hbuild, hkept⟩ := h
  have hsent := sent_of_extract hextract
  obtain ⟨generator, guided, hgen, hguided, hvalidate⟩ := buildDisaggReq_eq_ok.1 hbuild
  have hvalid := Req.validated_of_validate hguided hvalidate
  have hunset := (subclass_same_iff hvalid (overlay_subclass ..)).1 hkept.subclass
  have harr := overlay_arrival hsent hunset generator
  obtain ⟨hparams, hmax, hscale2⟩ := params_carried harr hvalid hkept
  obtain ⟨hfields, hembeds, hguidance⟩ := (fields_same_iff harr hvalid).1 hkept.fields
  obtain ⟨q, hq, rfl⟩ := (harr.guided_iff hparams).1 hguided
  refine ⟨hfields, hembeds, hparams, hunset, hmax, hscale2, ⟨q, hq, fun hlt => hguidance (decide_eq_true hlt)⟩, ?_⟩
  exact (rebuildGenerator_isOk_iff hsent hparams).1 ⟨generator, hgen⟩

theorem preserved_of_survives {req : Req} (hsurvives : Survives torch req) : Preserved torch req := by
  have hfields : ∀ f ∈ Req.fields, ∃ o, sentField torch req f = .ok o := by
    intro f hf
    by_cases hex : f.name ∈ Req.excludeFields
    · exact ⟨none, by simp [sentField, hex]⟩
    · exact sentField_of_carried (hsurvives.fields f hf hex)
  obtain ⟨tf, hextract⟩ := exists_extract hfields
    fun f hf => sentParam_of_carried hf (hsurvives.params f hf)
  have hsent := sent_of_extract hextract
  obtain ⟨generator, hgen⟩ := (rebuildGenerator_isOk_iff hsent hsurvives.params).2 hsurvives.seed
  have harr := overlay_arrival hsent hsurvives.subclass generator
  obtain ⟨q, hq, hguidance⟩ := hsurvives.guidance
  have hguided := (harr.guided_iff hsurvives.params).2 ⟨q, hq, rfl⟩
  obtain ⟨valid, hvalidate⟩ := Req.exists_validate hguided
  have hvalid := Req.validated_of_validate hguided hvalidate
  refine ⟨tf, valid, hextract, buildDisaggReq_eq_ok.2 ⟨generator, _, hgen, hguided, hvalidate⟩,
    ?_, params_same harr hvalid hsurvives,
    (subclass_same_iff hvalid (overlay_subclass ..)).2 hsurvives.subclass, ?_⟩
  · exact (fields_same_iff harr hvalid).2 ⟨hsurvives.fields, hsurvives.embeds,
      fun hdec => hguidance (of_decide_eq_true hdec)⟩
  · intro key j hget hfree
    rw [hvalid.extra]
    exact harr.extra key j hget hfree

/-- **A request survives the role boundary exactly if it `Survives`**: `extract_transfer_fields` and
    `_build_disagg_req` go through, and every transferable field and extra entry has on the receiver
    the value it has on the sender. -/
theorem preserved_iff_survives (torch : Torch) (req : Req) : Preserved torch req ↔ Survives torch req :=
  ⟨survives_of_preserved, preserved_of_survives⟩

/-- A validated request without tensors whose negative prompt was set to `None`. -/
def promptlessReq : Req where
  values := Function.update (initial Req.fields) "negative_prompt_embeds" (.json (.list []))
  samplingParams :=
    { SamplingParams.new with
      values := Function.update
        (Function.update SamplingParams.new.values "guidance_scale_2" (.json (.float 1)))
        "negative_prompt" (.json .null) }
  extra := .empty
  generator := false

/-- The default prompt takes the place of the `None`, whatever the tensor operations do. -/
theorem promptless_not_preserved :
    promptlessReq.samplingParams.values "negative_prompt" = .json .null ∧
      ∀ torch, ¬ Preserved torch promptlessReq := by
  refine ⟨rfl, fun torch h => ?_⟩
  obtain ⟨f, hf, hname⟩ := mem_map.1
    (mem_of_getElem? (i := 4) rfl :
        "negative_prompt" ∈ names SamplingParams.fields)
  have hcarried := (survives_of_preserved h).params f hf (by rw [hname]; decide)
  rw [hname] at hcarried
  obtain ⟨j, hj, hnull⟩ := hcarried
  have hprompt : promptlessReq.samplingParams.values "negative_prompt" = .json .null := rfl
  cases hj
  exact Bool.false_ne_true (hnull rfl)

end Boundary
