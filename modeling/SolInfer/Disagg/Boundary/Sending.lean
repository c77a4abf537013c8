import SolInfer.Disagg.Boundary
import SolInfer.Lib.Keyed

set_option autoImplicit false

/-! # What is sent

`extract_transfer_fields` is a series of loops over tables with distinct names, so every field can be
followed on its own: `sentField`, `sentParam` and `sentExtra` say what of it is sent, and `Sent` what
the two results hold under each name. -/

open List

namespace Boundary

namespace Value

def number : Value → Option ℚ
  | .json j => j.number
  | _ => none

/-- The same value in Python's sense: identical, or numbers that are equal. -/
def Same (u v : Value) : Prop := u = v ∨ ∃ q, u.number = some q ∧ v.number = some q

theorem Same.refl (v : Value) : v.Same v := .inl rfl

variable {v : Value}

theorem Same.number_eq {u : Value} (h : u.Same v) : u.number = v.number := by
  rcases h with rfl | ⟨q, hu, hv⟩
  · rfl
  · rw [hu, hv]

theorem isNone_iff : v.isNone = true ↔ v = .json .null := by
  cases v <;> simp [isNone, Json.isNull_iff]

theorem isNone_of_number {q : ℚ} (h : v.number = some q) : v.isNone = false := by
  cases v with
  | json j => cases j <;> simp_all [number, Json.number, isNone, Json.isNull]
  | tensor t => rfl
  | tensors t ts => rfl

theorem Same.isNone_eq {u : Value} (h : u.Same v) : u.isNone = v.isNone := by
  rcases h with rfl | ⟨q, hu, hv⟩
  · rfl
  · rw [isNone_of_number hu, isNone_of_number hv]

theorem same_of_eqScalar {j c : Json} (h : j.eqScalar c = true) : (json j).Same (json c) := by
  cases j <;> cases c <;> simp_all [Json.eqScalar, Json.number, Same, number]

theorem Same.isTensorLike_eq {u : Value} (h : u.Same v) : u.isTensorLike = v.isTensorLike := by
  rcases h with rfl | ⟨q, hu, hv⟩
  · rfl
  · cases u <;> cases v <;> simp_all [number, isTensorLike]

end Value

abbrev names (fields : List DataclassField) : List String := fields.map DataclassField.name

/-! ## The tables

The facts about names that keep the fields apart. -/

/-- The bytes of a name, as a number: what the kernel compares names by without decoding them anew. -/
def nameKey (name : String) : Nat := name.toByteArray.data.toList.foldl (fun k b => 256 * k + b.toNat) 0

/-- What is checked of the tables, in one pass over the names. -/
theorem tables_checked :
    ((names Req.fields).map nameKey).Nodup ∧
    ((names SamplingParams.fields ++ SamplingParams.subclassFields).map nameKey).Nodup ∧
    (∀ name ∈ names SamplingParams.fields,
      nameKey name ∈ (names Req.fields).map nameKey →
        nameKey name = nameKey "max_sequence_length") ∧
    (∀ name ∈ names Req.fields ++
      (names SamplingParams.fields ++ SamplingParams.subclassFields),
      name.toByteArray.data.toList.head? ≠ some 95) ∧
    (∀ f ∈ Req.fields, f.name ∉ Req.excludeFields →
      (match f.default with | .factory => false | _ => true) = true) ∧
    ∀ f ∈ SamplingParams.fields, f.name ∉ SamplingParams.excludeFields →
      (match f.default with | .value _ => true | _ => false) = true := by
  decide +kernel

theorem Req.nodup_names : (names Req.fields).Nodup := .of_map _ tables_checked.1

theorem SamplingParams.nodup_names :
    (names SamplingParams.fields ++ SamplingParams.subclassFields).Nodup :=
  .of_map _ tables_checked.2.1

theorem head?_of_startsWith {name : String} (h : startsWith "_" name = true) :
    name.toByteArray.data.toList.head? = some 95 := by
  obtain ⟨rest, hrest⟩ := isPrefixOf_iff_prefix.1 h
  rw [← @String.ofList_toList name, ← hrest]
  simp only [String.toByteArray_ofList, utf8Encode_append, ByteArray.data_append, Array.toList_append]
  rfl

theorem underscore_free : ∀ name ∈ names Req.fields ++
    (names SamplingParams.fields ++ SamplingParams.subclassFields),
    startsWith "_" name = false := fun name hname =>
  Bool.eq_false_iff.2 (mt head?_of_startsWith (tables_checked.2.2.2.1 name hname))

/-- The one name that both classes have. -/
theorem shared_name : ∀ name ∈ names SamplingParams.fields,
    name ∈ names Req.fields → name = "max_sequence_length" := fun name hname hreq =>
  inj_on_of_nodup_map tables_checked.2.1 (mem_append_left _ hname)
    (mem_append_left _ (mem_of_getElem? (i := 59) rfl))
    (tables_checked.2.2.1 name hname (mem_map_of_mem hreq))

theorem Req.factory_excluded : ∀ f ∈ Req.fields, f.name ∉ Req.excludeFields →
    (match f.default with | .factory => false | _ => true) = true := tables_checked.2.2.2.2.1

theorem SamplingParams.factory_excluded : ∀ f ∈ SamplingParams.fields,
    f.name ∉ SamplingParams.excludeFields →
    (match f.default with | .value _ => true | _ => false) = true := tables_checked.2.2.2.2.2

variable {f : DataclassField} {name : String}

section

variable {fields : List DataclassField} (hnodup : (names fields).Nodup) (hf : f ∈ fields)
include hnodup hf

theorem find?_name : fields.find? (fun g => g.name = f.name) = some f := by
  induction fields with
  | nil => exact absurd hf not_mem_nil
  | cons g rest ih =>
    rw [names, map_cons, nodup_cons] at hnodup
    rcases mem_cons.1 hf with rfl | hr
    · simp
    · have hne : g.name ≠ f.name := fun he => hnodup.1 (he ▸ mem_map_of_mem hr)
      rw [find?_cons_of_neg (by simpa using hne), ih hnodup.2 hr]

theorem default_of_find? (hname : f.name = name) {default : Default}
    (h : fields.find? (fun g => g.name = name) = some ⟨name, default⟩) : f.default = default := by
  rw [← hname, find?_name hnodup hf] at h
  exact congrArg DataclassField.default (Option.some.inj h)

theorem initial_eq : initial fields f.name = f.default.init := by
  rw [initial, find?_name hnodup hf]

end

/-! ## Sending, field by field -/

section Sending

variable (torch : Torch) (req : Req)

/-- What of a field of the request is sent: nothing of an excluded, unset or default one. -/
def sentField (f : DataclassField) : Except PyError (Option Value) :=
  let value := req.values f.name
  if f.name ∈ Req.excludeFields ∨ value.isNone = true then .ok none
  else (value.isDefault torch f.default).map fun isDefault => if isDefault then none else some value

/-- Where a sent value goes: tensors on the left, scalars on the right. -/
def place (entry : Option Value × Option Json) : Option Value → Option Value × Option Json
  | none => entry
  | some (.json j) => (entry.1, some j)
  | some v => (some v, entry.2)

theorem extractReqField_keyed :
    Keyed (fun acc name => (acc.tensors.get? name, acc.scalars.get? name)) DataclassField.name
      (fun f entry => (sentField torch req f).map (place entry)) (extractReqField torch req) where
  entry acc f := by
    unfold extractReqField sentField
    by_cases hex : f.name ∈ Req.excludeFields
    · simp [hex, Except.map, place]
    by_cases hnone : (req.values f.name).isNone = true
    · simp [hnone, Except.map, place]
    simp only [hex, hnone, if_false]
    cases (req.values f.name).isDefault torch f.default with
    | error e => rfl
    | ok isDefault =>
      cases isDefault
      · cases hv : req.values f.name <;>
          simp [bind, Except.bind, pure, Except.pure, Except.map, place, Value.isTensorLike,
            Value.toJsonSerializable]
      · simp [bind, Except.bind, pure, Except.pure, Except.map, place]
  frame acc f acc' name hstep hne := by
    unfold extractReqField at hstep
    simp only [bind, Except.bind, pure, Except.pure] at hstep
    repeat' split at hstep
    all_goals cases hstep
    all_goals simp [Dict.get?_set_of_ne _ _ (Ne.symm hne)]

/-- What an entry of `req.extra` adds to the scalars. -/
def sentExtra : Value → Option Json
  | .json j => some j
  | _ => none

theorem extractExtraFields_keyed :
    KeyedPure (fun (scalars : Dict String Json) name => scalars.get? name)
      (fun e : String × Value => extraKey e.1)
      (fun e entry => if startsWith "_" e.1 then entry else (sentExtra e.2).or entry)
      (fun scalars e => if startsWith "_" e.1 then scalars
        else match e.2 with
          | .json j => scalars.set (extraKey e.1) j
          | _ => scalars) where
  entry scalars e := by
    obtain ⟨key, v⟩ := e
    by_cases h : startsWith "_" key = true
    · simp [h]
    · cases v <;> simp [h, sentExtra]
  frame scalars e name hne := by
    obtain ⟨key, v⟩ := e
    by_cases h : startsWith "_" key = true
    · simp [h]
    · cases v <;> simp [h, Dict.get?_set_of_ne _ _ (Ne.symm hne)]

/-- What of a sampling parameter is sent when no scalar of its name is there yet. -/
def sentParam (e : String × Value) : Except PyError (Option Json) :=
  if e.1 ∈ SamplingParams.excludeFields ∨ e.2.isNone = true then .ok none
  else match SamplingParams.baseDefault e.1 with
    | some c => (e.2.equals torch c).map
        fun isDefault => if isDefault then none else some (e.2.toJsonSerializable torch)
    | none => .ok (some (e.2.toJsonSerializable torch))

theorem extractSpField_keyed :
    Keyed (fun (scalars : Dict String Json) name => scalars.get? name) Prod.fst
      (fun e entry => match entry with
        | some j => .ok (some j)
        | none => sentParam torch e)
      (extractSpField torch) where
  entry scalars e := by
    unfold extractSpField sentParam
    by_cases hex : e.1 ∈ SamplingParams.excludeFields
    · cases hget : scalars.get? e.1 <;> simp [hex, hget, Except.map]
    cases hget : scalars.get? e.1 with
    | some j => simp [hex, Dict.contains, hget, Except.map]
    | none =>
      by_cases hnone : e.2.isNone = true
      · simp [hnone, Dict.contains, hget, Except.map]
      simp only [hex, hnone, Dict.contains, hget, if_false]
      cases SamplingParams.baseDefault e.1 with
      | none => simp [bind, Except.bind, pure, Except.pure, Except.map]
      | some c =>
        cases heq : e.2.equals torch c with
        | error err => simp [heq, bind, Except.bind, Except.map]
        | ok isDefault =>
          cases isDefault <;>
            simp [heq, bind, Except.bind, pure, Except.pure, Except.map, hget]
  frame scalars e scalars' name hstep hne := by
    unfold extractSpField at hstep
    simp only [bind, Except.bind, pure, Except.pure] at hstep
    repeat' split at hstep
    all_goals cases hstep
    all_goals simp [Dict.get?_set_of_ne _ _ (Ne.symm hne)]

end Sending

/-! ## Keys of extra entries -/

theorem toList_extraKey (key : String) : (extraKey key).toList = "_extra_".toList ++ key.toList := by
  simp [extraKey]

theorem stripExtra_extraKey (key : String) : stripExtra (extraKey key) = key := by
  have hdrop : (extraKey key).toList.drop 7 = key.toList := by
    rw [toList_extraKey]
    exact @List.drop_left Char "_extra_".toList key.toList
  rw [stripExtra, hdrop, String.ofList_toList]

theorem isExtraKey_extraKey (key : String) : isExtraKey (extraKey key) = true := by
  rw [isExtraKey, startsWith, toList_extraKey, isPrefixOf_iff_prefix]
  exact prefix_append ..

theorem extraKey_stripExtra {key : String} (h : isExtraKey key = true) :
    extraKey (stripExtra key) = key := by
  rw [isExtraKey, startsWith, isPrefixOf_iff_prefix] at h
  obtain ⟨rest, hrest⟩ := h
  have hkey : key = extraKey (String.ofList rest) := by
    apply String.toList_injective
    rw [toList_extraKey, ← hrest]
    simp
  rw [hkey, stripExtra_extraKey]

theorem extraKey_injective : Function.Injective extraKey :=
  Function.LeftInverse.injective stripExtra_extraKey

theorem isExtraKey_of_underscore_free (h : startsWith "_" name = false) : isExtraKey name = false := by
  by_contra hex
  rw [Bool.not_eq_false] at hex
  rw [← extraKey_stripExtra hex, startsWith, toList_extraKey] at h
  simp [isPrefixOf] at h

theorem extraKey_ne (h : startsWith "_" name = false) (key : String) : extraKey key ≠ name := by
  intro he
  have hkey := isExtraKey_extraKey key
  rw [he, isExtraKey_of_underscore_free h] at hkey
  cases hkey

/-! ## What is sent -/

namespace SamplingParams

theorem nodup_fieldNames : (names fields).Nodup :=
  (nodup_append.1 nodup_names).1

theorem baseDefault_eq (hf : f ∈ fields) {c : Json}
    (hc : f.default = .value c) : baseDefault f.name = some c := by
  obtain ⟨name, default⟩ := f
  cases hc
  rw [baseDefault, find?_name nodup_fieldNames hf]

theorem subclass_not_field (h : name ∈ subclassFields) : name ∉ names fields :=
  fun hf => (nodup_append.1 nodup_names).2.2 name hf name h rfl

theorem baseDefault_subclass (h : name ∈ subclassFields) : baseDefault name = none := by
  have hfind : fields.find? (fun f => f.name = name) = none := by
    refine find?_eq_none.2 fun f hf he => subclass_not_field h ?_
    exact mem_map.2 ⟨f, hf, of_decide_eq_true he⟩
  rw [baseDefault, hfind]

theorem excluded_is_field : ∀ name ∈ excludeFields, name ∈ names fields := by
  simp only [excludeFields, forall_mem_cons]
  exact ⟨mem_of_getElem? (i := 0) rfl, mem_of_getElem? (i := 25) rfl,
    mem_of_getElem? (i := 34) rfl, forall_mem_nil _⟩

theorem entries_nodup (sp : SamplingParams) : (sp.entries.map Prod.fst).Nodup := by
  refine nodup_append.2 ⟨nodup_fieldNames, sp.subclass.nodup, fun a ha b hb he => ?_⟩
  subst he
  exact subclass_not_field (sp.known a hb) ha

theorem mem_entries_field (sp : SamplingParams) (hf : f ∈ fields) :
    (f.name, sp.values f.name) ∈ sp.entries :=
  mem_append_left _ (mem_map_of_mem hf)

end SamplingParams

section Sent

variable (torch : Torch) (req : Req)

/-- The scalar that a parameter of a subclass puts under its name. -/
def shadow (name : String) : Option Json :=
  (req.samplingParams.subclass.get? name).bind
    fun w => if w.isNone then none else some (w.toJsonSerializable torch)

def SubclassUnset : Prop :=
  ∀ name v, req.samplingParams.subclass.get? name = some v → v.isNone = true

/-- What the two results of `extract_transfer_fields` hold, name by name. -/
structure Sent (tf : TransferFields) : Prop where
  tensors : ∀ f ∈ Req.fields, ∃ o, sentField torch req f = .ok o ∧
    tf.tensors.get? f.name = (place (none, none) o).1 ∧
    (f.name ∉ Req.excludeFields →
      tf.scalars.get? f.name = (place (none, none) o).2.or (shadow torch req f.name))
  others : ∀ name ∉ names Req.fields, tf.tensors.get? name = none
  params : ∀ f ∈ SamplingParams.fields, f.name ∉ names Req.fields →
    ∃ o, sentParam torch (f.name, req.samplingParams.values f.name) = .ok o ∧
      (tf.scalars.get? f.name = o ∨
        (req.samplingParams.values f.name).isNone = false ∧ tf.scalars.get? f.name =
          some ((req.samplingParams.values f.name).toJsonSerializable torch))
  extra : ∀ key, tf.scalars.get? (extraKey key) =
    if startsWith "_" key then none else (req.extra.get? key).bind sentExtra

variable {torch req} {scalars' scalars : Dict String Json}

theorem shadow_eq_none (hunset : SubclassUnset req) (name : String) : shadow torch req name = none := by
  unfold shadow
  cases hget : req.samplingParams.subclass.get? name with
  | none => rfl
  | some w => exact if_pos (hunset name w hget)

theorem extractTransferFields_eq_ok {tf : TransferFields} :
    extractTransferFields torch req = .ok tf ↔ ∃ acc scalars,
      Req.fields.foldlM (extractReqField torch req) ⟨.empty, .empty⟩ = .ok acc ∧
      req.samplingParams.entries.foldlM (extractSpField torch)
        (extractExtraFields req.extra acc.scalars) = .ok scalars ∧
      tf = ⟨acc.tensors,
        if req.generator && !(req.samplingParams.values "seed").isNone then
          scalars.set "seed" ((req.samplingParams.values "seed").toJsonSerializable torch)
        else scalars⟩ := by
  constructor
  · intro h
    obtain ⟨acc, hacc, h⟩ := Except.bind_eq_ok.1 h
    obtain ⟨scalars, hsp, h⟩ := Except.bind_eq_ok.1 h
    exact ⟨acc, scalars, hacc, hsp, (Except.ok.inj h).symm⟩
  · rintro ⟨acc, scalars, hacc, hsp, rfl⟩
    exact Except.bind_eq_ok.2 ⟨acc, hacc, Except.bind_eq_ok.2 ⟨scalars, hsp, rfl⟩⟩

section

variable {acc : TransferFields}
  (hacc : Req.fields.foldlM (extractReqField torch req) ⟨.empty, .empty⟩ = .ok acc)
include hacc

theorem reqFields_placed (hf : f ∈ Req.fields) :
    ∃ o, sentField torch req f = .ok o ∧
      place (none, none) o = (acc.tensors.get? f.name, acc.scalars.get? f.name) := by
  exact Except.map_eq_ok.1 ((extractReqField_keyed torch req).foldlM_entry Req.nodup_names hacc hf)

theorem reqFields_absent (hname : name ∉ names Req.fields) :
    acc.tensors.get? name = none ∧ acc.scalars.get? name = none := by
  have h := (extractReqField_keyed torch req).foldlM_frame hacc hname
  exact ⟨congrArg Prod.fst h, congrArg Prod.snd h⟩

end

theorem extractExtraFields_frame (extra : Dict String Value) (scalars : Dict String Json)
    (h : startsWith "_" name = false) :
    (extractExtraFields extra scalars).get? name = scalars.get? name := by
  refine extractExtraFields_keyed.foldl_frame extra.entries scalars (fun hmem => ?_)
  obtain ⟨e, _, he⟩ := mem_map.1 hmem
  exact extraKey_ne h e.1 he

theorem extractExtraFields_extraKey (extra : Dict String Value) (scalars : Dict String Json)
    {key : String} (hkey : scalars.get? (extraKey key) = none) :
    (extractExtraFields extra scalars).get? (extraKey key) =
      if startsWith "_" key then none else (extra.get? key).bind sentExtra := by
  have hnodup : (extra.entries.map (fun e => extraKey e.1)).Nodup := by
    have h := extra.nodup.map extraKey_injective
    rwa [map_map] at h
  cases hget : extra.get? key with
  | some v =>
    have h := extractExtraFields_keyed.foldl_entry scalars hnodup (Dict.mem_entries.2 hget)
    rw [hkey, Option.or_none] at h
    exact h
  | none =>
    have hframe : extraKey key ∉ extra.entries.map (fun e => extraKey e.1) := by
      intro hmem
      obtain ⟨e, he, hek⟩ := mem_map.1 hmem
      have hmem' : (key, e.2) ∈ extra.entries := extraKey_injective hek ▸ he
      rw [Dict.mem_entries, hget] at hmem'
      cases hmem'
    have h := extractExtraFields_keyed.foldl_frame extra.entries scalars hframe
    rw [Option.bind_none, ite_self, ← hkey]
    exact h

theorem underscore_free_req (hf : f ∈ Req.fields) : startsWith "_" f.name = false :=
  underscore_free _ (mem_append_left _ (mem_map_of_mem hf))

theorem underscore_free_entry {e : String × Value} (he : e ∈ req.samplingParams.entries) :
    startsWith "_" e.1 = false := by
  refine underscore_free _ (mem_append_right _ ?_)
  rcases mem_append.1 he with hbase | hs
  · obtain ⟨f, hf, rfl⟩ := mem_map.1 hbase
    exact mem_append_left _ (mem_map_of_mem hf)
  · exact mem_append_right _ (req.samplingParams.known _ (mem_map_of_mem hs))

theorem sentParam_subclass (h : name ∈ SamplingParams.subclassFields) (w : Value) :
    sentParam torch (name, w) =
      .ok (if w.isNone then none else some (w.toJsonSerializable torch)) := by
  have hex : name ∉ SamplingParams.excludeFields :=
    fun he => SamplingParams.subclass_not_field h (SamplingParams.excluded_is_field name he)
  unfold sentParam
  cases hw : w.isNone <;> simp [hex, SamplingParams.baseDefault_subclass h]

theorem seed_not_req : "seed" ∉ names Req.fields := fun hmem =>
  absurd (shared_name _ (mem_of_getElem? (i := 18) rfl) hmem) (by decide)

theorem max_sequence_length_excluded : "max_sequence_length" ∈ Req.excludeFields := by decide

section

variable (hsp : req.samplingParams.entries.foldlM (extractSpField torch) scalars = .ok scalars')
include hsp

theorem extractSp_frame (hname : name ∉ req.samplingParams.entries.map Prod.fst) :
    scalars'.get? name = scalars.get? name :=
  (extractSpField_keyed torch).foldlM_frame hsp hname

theorem extractSp_entry {e : String × Value} (he : e ∈ req.samplingParams.entries) :
    (match scalars.get? e.1 with
      | some j => Except.ok (some j)
      | none => sentParam torch e) = .ok (scalars'.get? e.1) :=
  (extractSpField_keyed torch).foldlM_entry req.samplingParams.entries_nodup hsp he

theorem extractSp_req (hf : f ∈ Req.fields) (hex : f.name ∉ Req.excludeFields) :
    scalars'.get? f.name = (scalars.get? f.name).or (shadow torch req f.name) := by
  have hnotField : f.name ∉ names SamplingParams.fields := fun hmem =>
    hex (shared_name _ hmem (mem_map_of_mem hf) ▸ max_sequence_length_excluded)
  unfold shadow
  cases hsub : req.samplingParams.subclass.get? f.name with
  | none =>
    rw [extractSp_frame hsp, Option.bind_none, Option.or_none]
    rw [SamplingParams.entries, map_append, map_map, mem_append, not_or]
    exact ⟨hnotField, Dict.get?_eq_none.1 hsub⟩
  | some w =>
    have hknown := req.samplingParams.known _ (Dict.mem_keys.2 ⟨w, hsub⟩)
    have h := extractSp_entry hsp (mem_append_right _ (Dict.mem_entries.2 hsub))
    rw [sentParam_subclass hknown] at h
    cases hs : scalars.get? f.name with
    | some j =>
      rw [hs] at h
      exact (Except.ok.inj h).symm
    | none =>
      rw [hs] at h
      exact (Except.ok.inj h).symm

end

theorem sent_of_extract {tf : TransferFields} (h : extractTransferFields torch req = .ok tf) :
    Sent torch req tf := by
  obtain ⟨acc, scalars, hacc, hsp, rfl⟩ := extractTransferFields_eq_ok.1 h
  -- the seed of a generator is written last and touches no other name
  have hseed : ∀ name, name ≠ "seed" →
      (if req.generator && !(req.samplingParams.values "seed").isNone then
        scalars.set "seed" ((req.samplingParams.values "seed").toJsonSerializable torch)
      else scalars).get? name = scalars.get? name := by
    intro name hne
    split
    · exact Dict.get?_set_of_ne _ _ (Ne.symm hne)
    · rfl
  refine ⟨fun f hf => ?_, fun name hname => (reqFields_absent hacc hname).1, fun f hf hreq => ?_,
    fun key => ?_⟩
  · obtain ⟨o, ho, hplace⟩ := reqFields_placed hacc hf
    refine ⟨o, ho, by rw [hplace], fun hex => ?_⟩
    have hne : f.name ≠ "seed" := fun he => seed_not_req (he ▸ mem_map_of_mem hf)
    rw [hseed _ hne, extractSp_req hsp hf hex,
      extractExtraFields_frame _ _ (underscore_free_req hf), hplace]
  · have hentry := extractSp_entry hsp (req.samplingParams.mem_entries_field hf)
    have hfree : startsWith "_" f.name = false :=
      underscore_free_entry (req.samplingParams.mem_entries_field hf)
    simp only [extractExtraFields_frame _ _ hfree, (reqFields_absent hacc hreq).2] at hentry
    refine ⟨_, hentry, ?_⟩
    by_cases hname : f.name = "seed"
    · rw [hname]
      by_cases hgen : (req.generator && !(req.samplingParams.values "seed").isNone) = true
      · rw [if_pos hgen, Dict.get?_set_self]
        simp only [Bool.and_eq_true, Bool.not_eq_true'] at hgen
        exact .inr ⟨hgen.2, rfl⟩
      · rw [if_neg hgen]
        exact .inl rfl
    · exact .inl (hseed _ hname)
  · have habsent : extraKey key ∉ names Req.fields := by
      intro hmem
      obtain ⟨f, hf, he⟩ := mem_map.1 hmem
      exact extraKey_ne (underscore_free_req hf) key he.symm
    have hnotParam : extraKey key ∉ req.samplingParams.entries.map Prod.fst := by
      intro hmem
      obtain ⟨e, he, hek⟩ := mem_map.1 hmem
      exact extraKey_ne (underscore_free_entry he) key hek.symm
    rw [hseed _ (extraKey_ne (by decide) key), extractSp_frame hsp hnotParam,
      extractExtraFields_extraKey _ _ (reqFields_absent hacc habsent).2]

/-- Extraction raises only where one of the fields does. -/
theorem exists_extract (hfields : ∀ f ∈ Req.fields, ∃ o, sentField torch req f = .ok o)
    (hparams : ∀ f ∈ SamplingParams.fields,
      ∃ o, sentParam torch (f.name, req.samplingParams.values f.name) = .ok o) :
    ∃ tf, extractTransferFields torch req = .ok tf := by
  obtain ⟨acc, hacc⟩ := (extractReqField_keyed torch req).foldlM_isOk
    (s := ⟨.empty, .empty⟩) Req.nodup_names (fun f hf => by
      obtain ⟨o, ho⟩ := hfields f hf
      exact ⟨_, by rw [ho]; rfl⟩)
  obtain ⟨scalars, hsp⟩ := (extractSpField_keyed torch).foldlM_isOk
    (s := extractExtraFields req.extra acc.scalars) req.samplingParams.entries_nodup
    (fun e he => by
      cases hs : (extractExtraFields req.extra acc.scalars).get? e.1 with
      | some j => exact ⟨_, rfl⟩
      | none =>
        rcases mem_append.1 he with hbase | hsub
        · obtain ⟨f, hf, rfl⟩ := mem_map.1 hbase
          exact hparams f hf
        · exact ⟨_, sentParam_subclass
            (req.samplingParams.known _ (mem_map_of_mem hsub)) e.2⟩)
  exact ⟨_, extractTransferFields_eq_ok.2 ⟨acc, scalars, hacc, hsp, rfl⟩⟩

end Sent

end Boundary
