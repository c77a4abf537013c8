import SolInfer.Lib.Keyed
import SolInfer.Lib.Sparse
import SolInfer.Transport.RoundTrip

set_option autoImplicit false

/-! # The tensor codec of multipart messages

`transport/codec.py`: a message is a JSON frame, which describes the tensors and carries the scalar
fields, and one frame of raw bytes per tensor. -/

/-- `json.dumps` and `json.loads`, with what the code relies on: the representable values come back.
    `Text` is the type of the encoded frame. -/
structure JsonText (Text : Type) where
  dumps : Json → Text
  loads : Text → Except PyError Json
  Representable : Json → Prop
  representable_int : ∀ n, Representable (.int n)
  representable_str : ∀ s, Representable (.str s)
  representable_list : ∀ items, (∀ j ∈ items, Representable j) → Representable (.list items)
  representable_obj : ∀ d : Dict String Json, (∀ j ∈ d.values, Representable j) →
    Representable (.obj d.entries)
  loads_dumps : ∀ j, Representable j → loads (dumps j) = .ok j

namespace Json

/-- `j[key]`. -/
def getitem (j : Json) (key : String) : Except PyError Json :=
  match j with
  | .obj entries =>
    match Dict.lookup key entries with
    | some v => .ok v
    | none => .error (.keyError key)
  | _ => .error (.typeError "indices must be integers")

/-- `j.get(key, default)`. -/
def getOr (j : Json) (key : String) (default : Json) : Except PyError Json :=
  match j with
  | .obj entries => .ok ((Dict.lookup key entries).getD default)
  | _ => .error (.attributeError "object has no attribute 'get'")

/-- A value used as a string, an integer, a size or a list; one of another type raises. -/
def asStr : Json → Except PyError String
  | .str s => .ok s
  | _ => .error (.typeError "expected a string")

def asInt : Json → Except PyError Int
  | .int n => .ok n
  | _ => .error (.typeError "expected an integer")

def asSize : Json → Except PyError Nat
  | .int (.ofNat n) => .ok n
  | _ => .error (.typeError "expected a size")

def asList : Json → Except PyError (List Json)
  | .list items => .ok items
  | _ => .error (.typeError "expected a list")

end Json

/-- `dtype_to_str`. -/
def DType.toStr (d : DType) : Except PyError String :=
  if d ∈ DType.table then .ok d.name else .error (.valueError s!"Unsupported dtype: torch.{d.name}")

/-- `torch.frombuffer(buf, dtype).reshape(shape)`: `frombuffer` takes no empty buffer, and only whole
    elements. -/
def Tensor.fromBuffer (bytes : List UInt8) (dtype : DType) (shape : List Nat) : Except PyError Tensor :=
  if bytes = [] then
    .error (.valueError "both buffer length (0) and count (-1) must not be 0")
  else if ¬ dtype.elementSize ∣ bytes.length then
    .error (.valueError "buffer length after offset must be a multiple of element size")
  else Tensor.ofBytes shape dtype 0 bytes

/-- `TensorDescriptor`; the list index is -1 for a tensor that is not part of a list. -/
structure TensorDescriptor where
  fieldName : String
  shape : List Nat
  dtype : String
  listIndex : Int := -1
deriving DecidableEq, Repr

namespace TensorDescriptor

def toDict (d : TensorDescriptor) : Json :=
  .obj [("field_name", .str d.fieldName), ("shape", .list (d.shape.map (fun n => .int (.ofNat n)))),
    ("dtype", .str d.dtype), ("list_index", .int d.listIndex)]

/-- `from_dict`. The source looks at the types of the values where it uses them. -/
def fromDict (j : Json) : Except PyError TensorDescriptor := do
  let fieldName ← (← j.getitem "field_name").asStr
  let shape ← (← (← j.getitem "shape").asList).mapM Json.asSize
  let dtype ← (← j.getitem "dtype").asStr
  let listIndex ← (← j.getOr "list_index" (.int (-1))).asInt
  return ⟨fieldName, shape, dtype, listIndex⟩

end TensorDescriptor

namespace Codec

/-! ## Packing -/

def listIndex : Option Nat → Int
  | some i => i
  | none => -1

/-- The descriptor and the buffer of one tensor; `TensorWrapper` exposes the bytes of a contiguous
    copy. -/
def packTensor (fieldName : String) (piece : Option Nat × Tensor) :
    Except PyError (TensorDescriptor × List UInt8) := do
  let dtype ← piece.2.dtype.toStr
  return (⟨fieldName, piece.2.shape, dtype, listIndex piece.1⟩, piece.2.contiguous.data)

/-- One round of the loop over the fields: a tensor, or the tensors of a list; `None` is skipped. -/
def packField (field : String × FieldValue) : Except PyError (List (TensorDescriptor × List UInt8)) :=
  field.2.pieces.mapM (packTensor field.1)

def packFields : List (String × FieldValue) → Except PyError (List (TensorDescriptor × List UInt8))
  | [] => .ok []
  | field :: rest => do
    let packed ← packField field
    return packed ++ (← packFields rest)

variable (descriptors : List TensorDescriptor)

def metadata (scalarFields : ScalarFields) : Json :=
  .obj [("tensor_descriptors", .list (descriptors.map TensorDescriptor.toDict)),
    ("scalar_fields", .obj scalarFields.entries)]

def packTensors {Text : Type} (json : JsonText Text) (tensorFields : Dict String FieldValue)
    (scalarFields : Option ScalarFields) : Except PyError (Text × List (List UInt8)) := do
  let packed ← packFields tensorFields.entries
  return (json.dumps (metadata (packed.map Prod.fst) (scalarFields.getD Dict.empty)), packed.map Prod.snd)

/-! ## Unpacking -/

def noteSize (sizes : Dict String Nat) (d : TensorDescriptor) : Dict String Nat :=
  if 0 ≤ d.listIndex then
    sizes.set d.fieldName (max ((sizes.get? d.fieldName).getD 0) (d.listIndex + 1).toNat)
  else sizes

def listSizes : Dict String Nat :=
  descriptors.foldl noteSize Dict.empty

/-- The lists of `None` that the tensors are put into. -/
def blankLists : Dict String FieldValue :=
  (listSizes descriptors).entries.foldl
    (fun fields e => fields.set e.1 (.list (List.replicate e.2 none))) Dict.empty

/-- What becomes of a field's value when one of its tensors arrives. A field that is described both as
    a tensor and as a list, which no sender does, raises here. -/
def place (d : TensorDescriptor) (tensor : Tensor) :
    Option FieldValue → Except PyError FieldValue
  | some (.list ts) =>
    if 0 ≤ d.listIndex then .ok (.list (ts.set d.listIndex.toNat (some tensor)))
    else .ok (.tensor tensor)
  | some _ =>
    if 0 ≤ d.listIndex then .error (.typeError "object does not support item assignment")
    else .ok (.tensor tensor)
  | none => if 0 ≤ d.listIndex then .error (.keyError d.fieldName) else .ok (.tensor tensor)

def unpackTensor (fields : Dict String FieldValue) (row : TensorDescriptor × List UInt8) :
    Except PyError (Dict String FieldValue) := do
  let dtype ← DType.strToDtype row.1.dtype
  let tensor ← Tensor.fromBuffer row.2 dtype row.1.shape
  let value ← place row.1 tensor (fields.get? row.1.fieldName)
  return fields.set row.1.fieldName value

/-- `unpack_tensors` of the frames of a message, the metadata and the buffers (`none` for a message
    without frames). -/
def unpackTensors {Text : Type} (json : JsonText Text) :
    Option (Text × List (List UInt8)) → Except PyError (Dict String FieldValue × Json)
  | none => .error (.indexError "list index out of range")
  | some (text, buffers) => do
    let value ← json.loads text
    let items ← (← value.getitem "tensor_descriptors").asList
    let descriptors ← items.mapM TensorDescriptor.fromDict
    let scalarFields ← value.getOr "scalar_fields" (.obj [])
    if buffers.length ≠ descriptors.length then
      .error (.valueError s!"Expected {descriptors.length} tensor frames, got {buffers.length}")
    else
      let fields ← (descriptors.zip buffers).foldlM unpackTensor (blankLists descriptors)
      return (fields, scalarFields)

/-! ## The round trip of a multipart message

Both loops of `unpack_tensors` act field by field, so a field comes back as its own descriptors and
frames rebuild it: a tensor as itself, a list with the length that its last tensor asks for. The trip
fails only where `torch.frombuffer` is given the empty frame of a tensor without elements. -/

open List Dict

/-! ## Packing -/

def row (fieldName : String) (piece : Option Nat × Tensor) : TensorDescriptor × List UInt8 :=
  (⟨fieldName, piece.2.shape, piece.2.dtype.name, listIndex piece.1⟩, piece.2.data)

def rows (fields : List (String × FieldValue)) : List (TensorDescriptor × List UInt8) :=
  fields.flatMap fun f => f.2.pieces.map (row f.1)

def Supported (fields : Dict String FieldValue) : Prop :=
  ∀ name v, fields.get? name = some v → ∀ p ∈ v.pieces, p.2.dtype.Supported

variable {v : FieldValue}

theorem packField_eq {name : String} (h : ∀ p ∈ v.pieces, p.2.dtype.Supported) :
    packField (name, v) = .ok (v.pieces.map (row name)) := by
  have hpack : ∀ p ∈ v.pieces, packTensor name (id p) = .ok (row name p) := by
    intro p hp
    have hdtype : p.2.dtype.toStr = .ok p.2.dtype.name := if_pos (h p hp)
    rw [id, packTensor, hdtype, Tensor.contiguous_data]
    rfl
  rw [packField, ← map_id v.pieces, mapM_map_ok v.pieces hpack, map_id]

variable {fields : List (String × FieldValue)}

theorem packFields_eq (h : ∀ f ∈ fields, ∀ p ∈ f.2.pieces, p.2.dtype.Supported) :
    packFields fields = .ok (rows fields) := by
  induction fields with
  | nil => rfl
  | cons f rest ih =>
    rw [packFields, packField_eq (h f mem_cons_self), ih (fun g hg => h g (.tail _ hg))]
    rfl

/-! ## The metadata -/

theorem fromDict_toDict (d : TensorDescriptor) : TensorDescriptor.fromDict d.toDict = .ok d := by
  have hshape : (d.shape.map (fun n => Json.int (.ofNat n))).mapM Json.asSize = .ok d.shape := by
    have hsize : ∀ n ∈ d.shape, Json.asSize (.int (.ofNat n)) = .ok (id n) := fun _ _ => rfl
    rw [mapM_map_ok d.shape hsize, map_id]
  simp only [TensorDescriptor.fromDict, TensorDescriptor.toDict, Json.getitem, Json.getOr,
    Dict.lookup, String.reduceEq, if_true, if_false, Json.asStr, Json.asList, Json.asInt,
    Option.getD_some]
  show (do
    let shape ← (d.shape.map (fun n => Json.int (.ofNat n))).mapM Json.asSize
    pure (⟨d.fieldName, shape, d.dtype, d.listIndex⟩ : TensorDescriptor)) = Except.ok d
  rw [hshape]
  rfl

section Metadata

variable {Text : Type} (json : JsonText Text)

theorem representable_toDict (d : TensorDescriptor) : json.Representable d.toDict := by
  have hnodup : ([("field_name", Json.str d.fieldName),
      ("shape", .list (d.shape.map (fun n => .int (.ofNat n)))), ("dtype", .str d.dtype),
      ("list_index", .int d.listIndex)].map Prod.fst).Nodup := by simp
  refine json.representable_obj ⟨_, hnodup⟩ fun j hj => ?_
  simp only [Dict.values, map_cons, map_nil, mem_cons, not_mem_nil, or_false] at hj
  rcases hj with rfl | rfl | rfl | rfl
  · exact json.representable_str _
  · refine json.representable_list _ fun j hj => ?_
    obtain ⟨n, -, rfl⟩ := mem_map.1 hj
    exact json.representable_int _
  · exact json.representable_str _
  · exact json.representable_int _

theorem representable_metadata (descriptors : List TensorDescriptor) {scalarFields : ScalarFields}
    (h : ∀ j ∈ scalarFields.values, json.Representable j) :
    json.Representable (metadata descriptors scalarFields) := by
  have hnodup : ([("tensor_descriptors", Json.list (descriptors.map TensorDescriptor.toDict)),
      ("scalar_fields", .obj scalarFields.entries)].map Prod.fst).Nodup := by simp
  refine json.representable_obj ⟨_, hnodup⟩ fun j hj => ?_
  simp only [Dict.values, map_cons, map_nil, mem_cons, not_mem_nil, or_false] at hj
  rcases hj with rfl | rfl
  · refine json.representable_list _ fun j hj => ?_
    obtain ⟨d, -, rfl⟩ := mem_map.1 hj
    exact representable_toDict json d
  · exact json.representable_obj scalarFields h

theorem unpackTensors_packed {scalarFields : ScalarFields} (packed : List (TensorDescriptor × List UInt8))
    (h : ∀ j ∈ scalarFields.values, json.Representable j) :
    unpackTensors json (some (json.dumps (metadata (packed.map Prod.fst) scalarFields),
        packed.map Prod.snd))
      = (packed.foldlM unpackTensor (blankLists (packed.map Prod.fst))).map
          (fun fields => (fields, .obj scalarFields.entries)) := by
  have hloads := json.loads_dumps _ (representable_metadata json (packed.map Prod.fst) h)
  have hdescriptors : ((packed.map Prod.fst).map TensorDescriptor.toDict).mapM
      TensorDescriptor.fromDict = .ok (packed.map Prod.fst) := by
    rw [mapM_map_ok (g := id) _ (fun d _ => fromDict_toDict d), map_id]
  have hlen : ¬ (packed.map Prod.snd).length ≠ (packed.map Prod.fst).length := by simp
  have hzip : (packed.map Prod.fst).zip (packed.map Prod.snd) = packed := by
    rw [zip_map', map_id'']
    exact fun _ => rfl
  rw [unpackTensors, hloads]
  show (do
    let descriptors ← ((packed.map Prod.fst).map TensorDescriptor.toDict).mapM
      TensorDescriptor.fromDict
    if (packed.map Prod.snd).length ≠ descriptors.length then
      Except.error (PyError.valueError _)
    else do
      let fields ← (descriptors.zip (packed.map Prod.snd)).foldlM unpackTensor
        (blankLists descriptors)
      pure (fields, Json.obj scalarFields.entries)) = _
  rw [hdescriptors]
  show (if (packed.map Prod.snd).length ≠ (packed.map Prod.fst).length then _ else _) = _
  rw [if_neg hlen, hzip]
  cases packed.foldlM unpackTensor (blankLists (packed.map Prod.fst)) with
  | error e => rfl
  | ok fields => rfl

/-- `unpack_tensors` rejects a message whose number of buffers is not that of its descriptors. -/
theorem unpackTensors_rejects {text : Text} {buffers : List (List UInt8)} {value : Json}
    {items : List Json} (hloads : json.loads text = .ok value)
    (hitems : value.getitem "tensor_descriptors" = .ok (.list items))
    (hlen : items.length ≠ buffers.length) :
    ∃ e, unpackTensors json (some (text, buffers)) = .error e := by
  cases hout : unpackTensors json (some (text, buffers)) with
  | error e => exact ⟨e, rfl⟩
  | ok r =>
    obtain ⟨_, hvalue, hout⟩ := Except.bind_eq_ok.1 hout
    cases hloads.symm.trans hvalue
    obtain ⟨_, hlist, hout⟩ := Except.bind_eq_ok.1 hout
    cases hitems.symm.trans hlist
    obtain ⟨_, ⟨⟩, hout⟩ := Except.bind_eq_ok.1 hout
    obtain ⟨descriptors, hd, hout⟩ := Except.bind_eq_ok.1 hout
    obtain ⟨_, -, hout⟩ := Except.bind_eq_ok.1 hout
    rw [if_pos (length_of_mapM hd ▸ hlen.symm)] at hout
    cases hout

end Metadata

/-! ## Field by field -/

theorem filter_rows (hnodup : (fields.map Prod.fst).Nodup) (name : String) :
    (rows fields).filter fun r => r.1.fieldName = name
      = ((Dict.lookup name fields).elim [] FieldValue.pieces).map (row name) := by
  induction fields with
  | nil => rfl
  | cons f rest ih =>
    obtain ⟨name', v⟩ := f
    rw [map_cons, nodup_cons] at hnodup
    rw [rows, flatMap_cons, filter_append, Dict.lookup]
    have hrest := ih hnodup.2
    rw [rows] at hrest
    rw [hrest]
    split
    next he =>
      subst he
      have hall : (v.pieces.map (row name')).filter fun r => r.1.fieldName = name'
          = v.pieces.map (row name') := by
        refine filter_eq_self.2 fun r hr => ?_
        obtain ⟨p, -, rfl⟩ := mem_map.1 hr
        simp [row]
      rw [hall, Dict.lookup_eq_none.2 hnodup.1]
      exact append_nil _
    next he =>
      have hnone : (v.pieces.map (row name')).filter (fun r => r.1.fieldName = name) = [] := by
        refine filter_eq_nil_iff.2 fun r hr => ?_
        obtain ⟨p, -, rfl⟩ := mem_map.1 hr
        simp [row, he]
      rw [hnone, nil_append]

theorem indexed_eq (i : Nat) (ts : List (Option Tensor)) :
    FieldValue.indexed i ts = (Sparse.indexed i ts).map (fun p => (some p.1, p.2)) := by
  induction ts generalizing i with
  | nil => rfl
  | cons o rest ih =>
    cases o with
    | none => exact ih (i + 1)
    | some t => exact congrArg ((some i, t) :: ·) (ih (i + 1))

/-! ### The lengths of the lists -/

def noted (d : TensorDescriptor) (o : Option Nat) : Option Nat :=
  if 0 ≤ d.listIndex then some (max (o.getD 0) (d.listIndex + 1).toNat) else o

theorem noteSize_keyed : KeyedPure (fun sizes : Dict String Nat => sizes.get?)
    TensorDescriptor.fieldName noted noteSize where
  entry sizes d := by
    rw [noteSize, noted]
    split
    · exact get?_set_self ..
    · rfl
  frame sizes d k hk := by
    rw [noteSize]
    split
    · exact get?_set_of_ne _ _ (Ne.symm hk)
    · rfl

def notedSize : FieldValue → Option Nat
  | .list ts => if Sparse.indexed 0 ts = [] then none else some (Sparse.size (Sparse.indexed 0 ts))
  | _ => none

variable (name : String)

theorem noted_row (p : Nat × Tensor) (o : Option Nat) :
    noted (row name (some p.1, p.2)).1 o = some (max (o.getD 0) (p.1 + 1)) :=
  if_pos (Int.natCast_nonneg p.1)

theorem foldl_noted (ps : List (Nat × Tensor)) (n : Nat) :
    (ps.map (fun p => (row name (some p.1, p.2)).1)).foldl (fun o d => noted d o) (some n)
      = some (ps.foldl (fun n p => max n (p.1 + 1)) n) := by
  induction ps generalizing n with
  | nil => rfl
  | cons p rest ih =>
    rw [map_cons, foldl_cons, noted_row, ih, foldl_cons, Option.getD_some]

theorem foldl_noted_pieces (v : FieldValue) :
    ((v.pieces.map (row name)).map Prod.fst).foldl (fun o d => noted d o) none = notedSize v := by
  cases v with
  | none => rfl
  | tensor t => rfl
  | list ts =>
    rw [FieldValue.pieces, indexed_eq, map_map, map_map, notedSize]
    cases hps : Sparse.indexed 0 ts with
    | nil => rfl
    | cons p rest =>
      have hfold := foldl_noted name rest (max 0 (p.1 + 1))
      show (rest.map _).foldl _ (noted (row name (some p.1, p.2)).1 none) = _
      exact hfold

theorem get?_blankLists (hnodup : (fields.map Prod.fst).Nodup) (name : String) :
    (blankLists ((rows fields).map Prod.fst)).get? name
      = ((Dict.lookup name fields).bind notedSize).map (fun n => .list (replicate n none)) := by
  have hsizes : (listSizes ((rows fields).map Prod.fst)).get? name
      = (Dict.lookup name fields).bind notedSize := by
    have hkey := noteSize_keyed.foldl_key ((rows fields).map Prod.fst) Dict.empty name
    refine hkey.trans ?_
    rw [filter_map, get?_empty]
    have hfilter : (rows fields).filter ((fun d => decide (d.fieldName = name)) ∘ Prod.fst)
        = ((Dict.lookup name fields).elim [] FieldValue.pieces).map (row name) :=
      filter_rows hnodup name
    rw [hfilter]
    cases Dict.lookup name fields with
    | none => rfl
    | some v => exact foldl_noted_pieces name v
  have hentries : (blankLists ((rows fields).map Prod.fst)).entries
      = [] ++ (listSizes ((rows fields).map Prod.fst)).entries.map
          (fun e => (e.1, FieldValue.list (replicate e.2 none))) :=
    entries_foldl_set (listSizes ((rows fields).map Prod.fst)).nodup nofun
  rw [← hsizes, Dict.get?, hentries]
  exact lookup_map (fun n => FieldValue.list (replicate n none)) name _

/-! ### The tensors -/

def arrive (r : TensorDescriptor × List UInt8) (o : Option FieldValue) :
    Except PyError (Option FieldValue) := do
  let dtype ← DType.strToDtype r.1.dtype
  let tensor ← Tensor.fromBuffer r.2 dtype r.1.shape
  return some (← place r.1 tensor o)

theorem unpackTensor_keyed : Keyed (fun fields : Dict String FieldValue => fields.get?)
    (fun r : TensorDescriptor × List UInt8 => r.1.fieldName) arrive unpackTensor where
  entry fields r := by
    rw [unpackTensor, arrive]
    cases DType.strToDtype r.1.dtype with
    | error e => rfl
    | ok dtype =>
      simp only [bind, Except.bind]
      cases Tensor.fromBuffer r.2 dtype r.1.shape with
      | error e => rfl
      | ok tensor =>
        simp only
        cases place r.1 tensor (fields.get? r.1.fieldName) with
        | error e => rfl
        | ok value => exact congrArg Except.ok (get?_set_self ..)
  frame fields r fields' k hrun hk := by
    obtain ⟨dtype, -, hrun⟩ := Except.bind_eq_ok.1 hrun
    obtain ⟨tensor, -, hrun⟩ := Except.bind_eq_ok.1 hrun
    obtain ⟨value, -, hrun⟩ := Except.bind_eq_ok.1 hrun
    cases hrun
    exact get?_set_of_ne _ _ (Ne.symm hk)

theorem fromBuffer_data {t : Tensor} (h : t.data ≠ []) :
    Tensor.fromBuffer t.data t.dtype t.shape = .ok t.received := by
  have hdvd : t.dtype.elementSize ∣ t.data.length := by
    rw [t.dataLength]
    exact Nat.dvd_mul_left _ _
  rw [Tensor.fromBuffer, if_neg h, if_neg (not_not.2 hdvd), Tensor.ofBytes, dif_pos t.dataLength,
    if_pos (Nat.dvd_zero _)]
  rfl

theorem arrive_row {p : Option Nat × Tensor} (hsup : p.2.dtype.Supported) (hdata : p.2.data ≠ [])
    (name : String) (o : Option FieldValue) :
    arrive (row name p) o = (place (row name p).1 p.2.received o).map some := by
  have hdtype : DType.strToDtype (row name p).1.dtype = .ok p.2.dtype :=
    DType.strToDtype_name hsup
  have hbytes : Tensor.fromBuffer (row name p).2 p.2.dtype (row name p).1.shape
      = .ok p.2.received := fromBuffer_data hdata
  rw [arrive, hdtype]
  simp only [bind, Except.bind, hbytes]
  cases place (row name p).1 p.2.received o with
  | error e => rfl
  | ok v => rfl

theorem foldlM_arrive_list (ps : List (Nat × Tensor)) (ts : List (Option Tensor))
    (hsup : ∀ p ∈ ps, p.2.dtype.Supported) (hdata : ∀ p ∈ ps, p.2.data ≠ []) :
    (ps.map (fun p => row name (some p.1, p.2))).foldlM (fun o r => arrive r o) (some (.list ts))
      = .ok (some (.list (Sparse.fill ts (ps.map (fun p => (p.1, p.2.received)))))) := by
  induction ps generalizing ts with
  | nil => rfl
  | cons p rest ih =>
    have hplace : place (row name (some p.1, p.2)).1 p.2.received (some (.list ts))
        = .ok (.list (ts.set p.1 (some p.2.received))) := by
      rfl
    rw [map_cons, foldlM_cons, arrive_row (hsup p (mem_cons_self ..)) (hdata p (mem_cons_self ..)), hplace]
    exact ih _ (fun q hq => hsup q (mem_cons_of_mem _ hq))
      (fun q hq => hdata q (mem_cons_of_mem _ hq))

theorem foldlM_arrive_pieces (hsup : ∀ p ∈ v.pieces, p.2.dtype.Supported)
    (hdata : ∀ p ∈ v.pieces, p.2.data ≠ []) :
    (v.pieces.map (row name)).foldlM (fun o r => arrive r o)
        ((notedSize v).map (fun n => .list (replicate n none)))
      = .ok (TransferTensorBuffer.arrived v) := by
  cases v with
  | none => rfl
  | tensor t =>
    have harrive := arrive_row (p := (none, t)) (hsup _ (mem_singleton_self _))
      (hdata _ (mem_singleton_self _)) name none
    have hplace : place (row name (none, t)).1 t.received none = .ok (.tensor t.received) := rfl
    simp only [FieldValue.pieces, map_cons, map_nil, foldlM_cons, foldlM_nil,
      notedSize, Option.map_none, harrive]
    rfl
  | list ts =>
    rw [TransferTensorBuffer.arrived, notedSize]
    simp only [FieldValue.pieces, indexed_eq] at hsup hdata ⊢
    by_cases hnil : Sparse.indexed 0 ts = []
    · rw [if_pos hnil, hnil]
      rfl
    · have hfill := foldlM_arrive_list name (Sparse.indexed 0 ts)
        (replicate (Sparse.size (Sparse.indexed 0 ts)) none)
        (fun p hp => hsup _ (mem_map_of_mem hp)) fun p hp => hdata _ (mem_map_of_mem hp)
      rw [Sparse.fill_indexed_map] at hfill
      rw [if_neg hnil, if_neg (by simpa using hnil), map_map]
      exact hfill

/-! ## The round trip -/

section RoundTrip

variable {Text : Type} (json : JsonText Text)

/-- What `pack_tensors` makes of the fields comes back from `unpack_tensors`: the scalar fields, and
    every field with its tensors at their positions; `None` fields, lists without a tensor and the
    `None`s after the last tensor of a list do not. -/
def RoundTrips (tensorFields : Dict String FieldValue) (scalarFields : Option ScalarFields) : Prop :=
  ∃ text buffers fields, packTensors json tensorFields scalarFields = .ok (text, buffers) ∧
    unpackTensors json (some (text, buffers))
      = .ok (fields, .obj (scalarFields.getD Dict.empty).entries) ∧
    ∀ name, fields.get? name = (tensorFields.get? name).bind TransferTensorBuffer.arrived

/-- A message whose number of buffers is not the number of its descriptors raises. -/
def RejectsMismatch : Prop :=
  ∀ text buffers value items, json.loads text = .ok value →
    value.getitem "tensor_descriptors" = .ok (.list items) → items.length ≠ buffers.length →
    ∃ e, unpackTensors json (some (text, buffers)) = .error e

variable {tensorFields : Dict String FieldValue} {scalarFields : Option ScalarFields}

theorem packTensors_eq (hsup : Supported tensorFields) :
    packTensors json tensorFields scalarFields
      = .ok (json.dumps (metadata ((rows tensorFields.entries).map Prod.fst)
          (scalarFields.getD Dict.empty)), (rows tensorFields.entries).map Prod.snd) := by
  have hpacked : packFields tensorFields.entries = .ok (rows tensorFields.entries) :=
    packFields_eq fun f hf => hsup f.1 f.2 (Dict.mem_entries.1 hf)
  rw [packTensors, hpacked]
  rfl

def NonEmpty (tensorFields : Dict String FieldValue) : Prop :=
  ∀ name v, tensorFields.get? name = some v → ∀ p ∈ v.pieces, 0 < p.2.shape.prod

theorem data_ne_nil_iff {t : Tensor} (h : t.dtype.Supported) : t.data ≠ [] ↔ 0 < t.shape.prod := by
  have hsize : 0 < t.dtype.elementSize := by
    have hall : ∀ d ∈ DType.table, 0 < d.elementSize := by decide
    exact hall _ h
  rw [← length_pos_iff, t.dataLength]
  exact ⟨fun hlt => Nat.pos_of_mul_pos_right hlt, fun hlt => Nat.mul_pos hlt hsize⟩

section

variable (hsup : Supported tensorFields)
  (hjson : ∀ j ∈ (scalarFields.getD Dict.empty).values, json.Representable j)
include hsup hjson

theorem roundTrips_of_nonEmpty (h : NonEmpty tensorFields) : RoundTrips json tensorFields scalarFields := by
  have hfold : ∀ name, ((rows tensorFields.entries).filter (fun r => r.1.fieldName = name)).foldlM
      (fun o r => arrive r o) ((blankLists ((rows tensorFields.entries).map Prod.fst)).get? name)
      = .ok ((tensorFields.get? name).bind TransferTensorBuffer.arrived) := by
    intro name
    rw [filter_rows tensorFields.nodup, get?_blankLists tensorFields.nodup]
    show _ = Except.ok ((Dict.lookup name tensorFields.entries).bind TransferTensorBuffer.arrived)
    cases hv : Dict.lookup name tensorFields.entries with
    | none => rfl
    | some v =>
      exact foldlM_arrive_pieces name (hsup name v hv)
        (fun p hp => (data_ne_nil_iff (hsup name v hv p hp)).2 (h name v hv p hp))
  obtain ⟨fields, hfields⟩ := unpackTensor_keyed.foldlM_isOk_of_key (fun name => ⟨_, hfold name⟩)
  refine ⟨_, _, fields, packTensors_eq json hsup, ?_, fun name => ?_⟩
  · rw [unpackTensors_packed json _ hjson, hfields]
    rfl
  · have hkey := unpackTensor_keyed.foldlM_key hfields name
    rw [hfold name] at hkey
    exact (Except.ok.inj hkey).symm

theorem unpackTensors_error_of_empty (h : ¬ NonEmpty tensorFields) {text : Text}
    {buffers : List (List UInt8)}
    (hpack : packTensors json tensorFields scalarFields = .ok (text, buffers)) :
    ∃ e, unpackTensors json (some (text, buffers)) = .error e := by
  simp only [NonEmpty, not_forall] at h
  obtain ⟨name, v, hv, p, hp, hempty⟩ := h
  have hdata : p.2.data = [] := not_not.1 (fun hne =>
    hempty ((data_ne_nil_iff (hsup name v hv p hp)).1 hne))
  have hmem : row name p ∈ rows tensorFields.entries :=
    mem_flatMap.2 ⟨(name, v), Dict.mem_entries.2 hv, mem_map_of_mem hp⟩
  have hstep : ∀ fields, ∃ e, unpackTensor fields (row name p) = .error e := by
    intro fields
    have hdtype : DType.strToDtype (row name p).1.dtype = .ok p.2.dtype :=
      DType.strToDtype_name (hsup name v hv p hp)
    have hbytes : (row name p).2 = [] := hdata
    rw [unpackTensor, hdtype]
    simp only [bind, Except.bind, Tensor.fromBuffer, if_pos hbytes]
    exact ⟨_, rfl⟩
  obtain ⟨e, he⟩ := foldlM_error_of_mem hmem hstep
    (blankLists ((rows tensorFields.entries).map Prod.fst))
  rw [packTensors_eq json hsup] at hpack
  cases hpack
  rw [unpackTensors_packed json _ hjson, he]
  exact ⟨e, rfl⟩

end

/-- **The tensor codec loses nothing but empty fields and trailing `None`s, exactly when every tensor
    has an element**, and it rejects a message with a buffer too many or too few. -/
theorem roundTrips_iff_nonEmpty (hsup : Supported tensorFields)
    (hjson : ∀ j ∈ (scalarFields.getD Dict.empty).values, json.Representable j) :
    RoundTrips json tensorFields scalarFields ∧ RejectsMismatch json ↔ NonEmpty tensorFields := by
  constructor
  · rintro ⟨⟨text, buffers, fields, hpack, hunpack, -⟩, -⟩
    by_contra hempty
    obtain ⟨e, he⟩ := unpackTensors_error_of_empty json hsup hjson hempty hpack
    rw [hunpack] at he
    cases he
  · intro h
    exact ⟨roundTrips_of_nonEmpty json hsup hjson h,
      fun text buffers value items => unpackTensors_rejects json⟩

end RoundTrip

/-! ## Two messages -/

/-- JSON values that travel as they are. -/
def plainJson : JsonText Json where
  dumps := id
  loads := .ok
  Representable := fun _ => True
  representable_int := fun _ => trivial
  representable_str := fun _ => trivial
  representable_list := fun _ _ => trivial
  representable_obj := fun _ _ => trivial
  loads_dumps := fun _ _ => rfl

def bytePair : Tensor :=
  { shape := [2], stride := [1], dtype := .uint8, data := [7, 9], strideLength := by decide, dataLength := rfl }

/-- A tensor, and a list with holes around its tensor. -/
def sparseFields : Dict String FieldValue :=
  (Dict.empty.set "latents" (.tensor bytePair)).set "embeds" (.list [none, some bytePair, none])

theorem mem_pieces_sparseFields {name : String}
    (h : sparseFields.get? name = some v) {p : Option Nat × Tensor} (hp : p ∈ v.pieces) :
    p.2 = bytePair := by
  rw [sparseFields, get?_set, get?_set] at h
  split at h
  · cases h
    simp only [FieldValue.pieces, FieldValue.indexed, mem_singleton] at hp
    rw [hp]
  · split at h
    · cases h
      simp only [FieldValue.pieces, mem_singleton] at hp
      rw [hp]
    · cases h

/-- Fields with tensors of two bytes come back. -/
theorem roundTrips_sparseFields :
    NonEmpty sparseFields ∧ RoundTrips plainJson sparseFields none ∧ RejectsMismatch plainJson := by
  have hsup : Supported sparseFields := by
    intro name v hv p hp
    rw [mem_pieces_sparseFields hv hp]
    decide
  have hne : NonEmpty sparseFields := by
    intro name v hv p hp
    rw [mem_pieces_sparseFields hv hp]
    decide
  exact ⟨hne, (roundTrips_iff_nonEmpty plainJson hsup (fun _ _ => trivial)).2 hne⟩

/-- The message of one tensor without elements is packed, and unpacking it raises. -/
theorem not_roundTrips_empty_tensor :
    (∃ text buffers, packTensors plainJson
        (Dict.empty.set "latents" (.tensor DiffusionTransferManager.emptyTensor)) none
          = .ok (text, buffers) ∧
      unpackTensors plainJson (some (text, buffers))
        = .error (.valueError "both buffer length (0) and count (-1) must not be 0")) ∧
    ¬ RoundTrips plainJson
      (Dict.empty.set "latents" (.tensor DiffusionTransferManager.emptyTensor)) none := by
  refine ⟨⟨_, _, rfl, rfl⟩, ?_⟩
  rintro ⟨text, buffers, fields, hpack, hunpack, -⟩
  cases hpack
  cases hunpack

end Codec
