import SolInfer.Transport.Manager.Proofs

set_option autoImplicit false

/-! # The round trip of a staged transfer

A transfer is staged on the sender, the first `data_size` bytes of its slot are copied into a slot
of the receiver, and the receiver reads the tensors back from the manifest. The reader recovers every
tensor whose bytes lie at its place (`Holds`), so the trip loses exactly what the manifest omits. -/

open List TransferTensorBuffer

/-- What a field should arrive as: nothing for `None`, and a list without its trailing `None`s. -/
def FieldValue.received : FieldValue → Option FieldValue
  | .none => Option.none
  | .tensor t => some (.tensor t.received)
  | .list ts => some (.list ((ts.rdropWhile Option.isNone).map (Option.map Tensor.received)))

variable {value : FieldValue}

namespace TransferTensorBuffer

/-! ## Reading back -/

/-- Tensors that lie in the slot from `off` on and whose dtypes the codec knows. -/
structure Readable (b : TransferTensorBuffer) (handle : SlotHandle) (off : Nat)
    (ps : List (Option Nat × Tensor)) : Prop where
  inside : b.Inside handle
  holds : Holds b.pool handle.offset off ps
  fits : Layout.Fits 512 off (sizes ps) handle.size
  supported : ∀ p ∈ ps, p.2.dtype.Supported
  dvd : 512 ∣ off

def SlotAligned (handle : SlotHandle) (ps : List (Option Nat × Tensor)) : Prop :=
  ∀ p ∈ ps, p.2.dtype.elementSize ∣ handle.offset

variable {b : TransferTensorBuffer} {handle : SlotHandle} {off : Nat} {rest : List (Option Nat × Tensor)}
variable {i : Option Nat} {t : Tensor}

theorem Readable.tail (h : b.Readable handle off ((i, t) :: rest)) :
    b.Readable handle (align512 (off + t.nbytes)) rest where
  inside := h.inside
  holds := h.holds.2
  fits := (Layout.fits_cons.1 h.fits).2
  supported p hp := h.supported p (.tail _ hp)
  dvd := Layout.dvd_alignUp 512 _

theorem Readable.append (xs ys : List (Option Nat × Tensor)) (h : b.Readable handle off (xs ++ ys)) :
    b.Readable handle off xs ∧ b.Readable handle (Layout.next 512 off (sizes xs)) ys := by
  have hfits := Layout.fits_append.1 (show Layout.Fits 512 off (sizes xs ++ sizes ys) _ by
    have := h.fits
    rwa [sizes, map_append] at this)
  have hholds := holds_append.1 h.holds
  exact ⟨⟨h.inside, hholds.1, hfits.1, fun p hp => h.supported p (mem_append_left _ hp), h.dvd⟩,
    ⟨h.inside, hholds.2, hfits.2, fun p hp => h.supported p (mem_append_right _ hp),
      Layout.dvd_next h.dvd _⟩⟩

theorem Readable.readEntry (h : b.Readable handle off ((i, t) :: rest)) (j : Option Nat) :
    b.readEntry handle ⟨off, t.shape, t.dtype.name, j⟩
      = if t.dtype.elementSize ∣ handle.offset then .ok t.received
        else .error (.runtimeError "self.storage_offset() must be divisible by the element size") := by
  have hsup : t.dtype.Supported := h.supported (i, t) mem_cons_self
  have hfit : off + t.nbytes ≤ handle.size := (Layout.fits_cons.1 h.fits).1
  have hin : handle.offset + handle.size ≤ b.allocator.poolSize := h.inside
  have hstart : min (handle.offset + off) b.allocator.poolSize = handle.offset + off := by omega
  have hslice : b.slice (handle.offset + off) t.nbytes = t.data := by
    have hlen : min (handle.offset + off + t.nbytes) b.allocator.poolSize - (handle.offset + off)
        = t.nbytes := by omega
    rw [slice, hlen, h.holds.1]
  -- the offset in the slot is a multiple of 512, hence of the element size
  have hdvd : t.dtype.elementSize ∣ handle.offset + off ↔ t.dtype.elementSize ∣ handle.offset :=
    (Nat.dvd_add_iff_left ((DType.elementSize_dvd hsup).trans h.dvd)).symm
  unfold TransferTensorBuffer.readEntry readTensor
  rw [DType.strToDtype_name hsup]
  simp only
  rw [hstart, show t.shape.prod * t.dtype.elementSize = t.nbytes from rfl, hslice, Tensor.ofBytes,
    dif_pos t.dataLength]
  simp only [hdvd]
  rfl

/-! ## Lists -/

theorem Readable.readList (us : List Tensor) (done : List (Option Tensor))
    (h : b.Readable handle off (FieldValue.indexed done.length (us.map some)))
    (ha : SlotAligned handle (FieldValue.indexed done.length (us.map some))) :
    b.readList handle (done ++ replicate us.length none)
        (entriesAt off (FieldValue.indexed done.length (us.map some)))
      = .ok (done ++ us.map (fun t => some t.received)) := by
  induction us generalizing off done with
  | nil => simp [FieldValue.indexed, entriesAt, TransferTensorBuffer.readList]
  | cons t rest ih =>
    have hlen : (done ++ [some t.received]).length = done.length + 1 := by simp
    have hnext := ih (done ++ [some t.received]) (by rw [hlen]; exact h.tail)
      (by rw [hlen]; exact fun p hp => ha p (.tail _ hp))
    simp only [map_cons, FieldValue.indexed, entriesAt, TransferTensorBuffer.readList,
      h.readEntry, if_pos (ha _ mem_cons_self), length_cons, replicate_succ]
    simpa using hnext

theorem Readable.readList_misaligned {ps : List (Option Nat × Tensor)} (acc : List (Option Tensor))
    (h : b.Readable handle off ps) (ha : ¬ SlotAligned handle ps) :
    ∃ e, b.readList handle acc (entriesAt off ps) = .error e := by
  induction ps generalizing off acc with
  | nil => exact absurd (fun p hp => by simp at hp) ha
  | cons p rest ih =>
    obtain ⟨i, t⟩ := p
    rw [entriesAt, TransferTensorBuffer.readList, h.readEntry]
    split
    · exact ⟨_, rfl⟩
    next hok =>
      split at hok
      next hdvd =>
        have hrest : ¬ SlotAligned handle rest :=
          fun hr => ha (forall_mem_cons.2 ⟨hdvd, hr⟩)
        cases i with
        | none => exact ⟨_, rfl⟩
        | some i => exact ih _ h.tail hrest
      · cases hok

theorem listIndices_entriesAt (off i : Nat) (us : List Tensor) :
    (entriesAt off (FieldValue.indexed i (us.map some))).map (fun e => e.listIndex.getD 0)
      = range' i us.length := by
  induction us generalizing off i with
  | nil => rfl
  | cons t rest ih => simp [FieldValue.indexed, entriesAt, range'_succ, ih]

theorem foldl_max_range' (a i n : Nat) : (range' i (n + 1)).foldl max a = max a (i + n) := by
  induction n generalizing a i with
  | zero => simp [range'_succ]
  | succ n ih =>
    rw [range'_succ, foldl_cons, ih]
    omega

theorem indexed_cons_isSome {j : Nat} {ts : List (Option Tensor)}
    (h : FieldValue.indexed j ts = (i, t) :: rest) :
    i.isSome = true := by
  induction ts generalizing j with
  | nil => cases h
  | cons u us ih =>
    cases u with
    | none => exact ih h
    | some u =>
      cases h
      rfl

/-! ## Fields -/

theorem exists_map_some {ts : List (Option Tensor)} (h : none ∉ ts) :
    ∃ us : List Tensor, ts = us.map some := by
  induction ts with
  | nil => exact ⟨[], rfl⟩
  | cons t rest ih =>
    obtain ⟨us, hus⟩ := ih fun hm => h (.tail _ hm)
    cases t with
    | none => exact absurd mem_cons_self h
    | some t => exact ⟨t :: us, by rw [hus, map_cons]⟩

theorem Readable.readField (hh : ∀ ts, value = .list ts → none ∉ ts)
    (h : b.Readable handle off value.pieces) (ha : SlotAligned handle value.pieces) :
    b.readField handle (entriesAt off value.pieces)
      = .ok (if value.pieces = [] then none else value.received) := by
  cases value with
  | none => rfl
  | tensor t =>
    simp only [FieldValue.pieces, entriesAt, TransferTensorBuffer.readField]
    simp [h.readEntry, ha (none, t) (mem_cons_self ..), FieldValue.received]
  | list ts =>
    obtain ⟨us, rfl⟩ := exists_map_some (hh ts rfl)
    cases us with
    | nil => rfl
    | cons t rest =>
      have hread := Readable.readList (t :: rest) [] h ha
      have hmax : ((entriesAt off (FieldValue.indexed 0 ((t :: rest).map some))).map
          (fun e => e.listIndex.getD 0)).foldl max 0 + 1 = (t :: rest).length := by
        rw [listIndices_entriesAt, length_cons, foldl_max_range']
        simp
      have htrim : ((t :: rest).map some).rdropWhile Option.isNone = (t :: rest).map some := by
        rw [rdropWhile_eq_self_iff]
        intro hne
        rw [getLast_map]
        simp
      simp only [FieldValue.received, htrim, map_map]
      simp only [FieldValue.pieces]
      -- expose the first entry, which decides that the field is a list
      simp only [map_cons, FieldValue.indexed, entriesAt, TransferTensorBuffer.readField,
        any_cons, Option.isSome_some, Bool.true_or, if_true] at hmax ⊢
      rw [hmax]
      simp only [map_cons, FieldValue.indexed, entriesAt, nil_append, length_nil] at hread
      rw [hread]
      simp [Function.comp_def]

theorem Readable.readField_misaligned (h : b.Readable handle off value.pieces)
    (ha : ¬ SlotAligned handle value.pieces) :
    ∃ e, b.readField handle (entriesAt off value.pieces) = .error e := by
  cases hps : value.pieces with
  | nil =>
    rw [hps] at ha
    exact absurd (fun p hp => by simp at hp) ha
  | cons p rest =>
    obtain ⟨i, t⟩ := p
    rw [hps] at h ha
    obtain ⟨e, he⟩ := h.readList_misaligned (replicate
      (((entriesAt off ((i, t) :: rest)).map (fun e => e.listIndex.getD 0)).foldl max 0 + 1) none) ha
    rw [entriesAt] at he ⊢
    rw [TransferTensorBuffer.readField]
    split
    · simp only [he]
      exact ⟨e, rfl⟩
    next hany =>
      -- without list indices the field is one tensor
      have hrest : rest = [] := by
        cases value with
        | none => cases hps
        | tensor u => cases hps; rfl
        | list ts => exact absurd (by simp [indexed_cons_isSome hps]) hany
      subst hrest
      have hdvd : ¬ t.dtype.elementSize ∣ handle.offset := by
        simpa [SlotAligned] using ha
      rw [h.readEntry, if_neg hdvd]
      exact ⟨_, rfl⟩

/-- What the reader makes of a field: a field without tensors does not arrive. -/
def arrived (value : FieldValue) : Option FieldValue :=
  if value.pieces = [] then none else value.received

section

variable {fields : List (String × FieldValue)} (result : Dict String FieldValue)
  (hh : DiffusionTransferManager.NoHoles fields) (h : b.Readable handle off (allPieces fields))
include hh h

theorem Readable.readFields (hnodup : (fields.map Prod.fst).Nodup)
    (ha : SlotAligned handle (allPieces fields)) :
    ∃ r, b.readFields handle result (fieldsAt off fields) = .ok r ∧
      ∀ name, r.get? name = ((Dict.lookup name fields).bind arrived).or (result.get? name) := by
  induction fields generalizing off result with
  | nil => exact ⟨result, rfl, fun name => by simp [Dict.lookup]⟩
  | cons f rest ih =>
    obtain ⟨name, value⟩ := f
    rw [map_cons, nodup_cons] at hnodup
    obtain ⟨hfst, hrest⟩ := Readable.append value.pieces (allPieces rest) h
    obtain ⟨hafst, harest⟩ := forall_mem_append.1
      (show ∀ p ∈ value.pieces ++ allPieces rest, _ from ha)
    have hh' : DiffusionTransferManager.NoHoles rest :=
      fun n ts hm => hh n ts (.tail _ hm)
    have hfield := Readable.readField (fun ts hv => hh name ts (by simp [hv])) hfst hafst
    have hlookup : Dict.lookup name rest = none := Dict.lookup_eq_none.2 hnodup.1
    rw [fieldsAt]
    by_cases hnil : value.pieces = []
    · rw [if_pos hnil]
      obtain ⟨r, hr, hget⟩ := ih result hh' hrest hnodup.2 harest
      refine ⟨r, hr, fun name' => ?_⟩
      rw [hget, Dict.lookup]
      split
      next he => simp [← he, hlookup, arrived, hnil]
      · rfl
    · rw [if_neg hnil, TransferTensorBuffer.readFields, hfield, if_neg hnil]
      obtain ⟨x, hx⟩ : ∃ x, value.received = some x := by
        cases value with
        | none => exact absurd rfl hnil
        | tensor t => exact ⟨_, rfl⟩
        | list ts => exact ⟨_, rfl⟩
      simp only [hx]
      obtain ⟨r, hr, hget⟩ := ih (result.set name x) hh' hrest hnodup.2 harest
      refine ⟨r, hr, fun name' => ?_⟩
      rw [hget, Dict.lookup, Dict.get?_set]
      split
      next he => simp [← he, hlookup, arrived, hnil, hx]
      · rfl

theorem Readable.readFields_misaligned (ha : ¬ SlotAligned handle (allPieces fields)) :
    ∃ e, b.readFields handle result (fieldsAt off fields) = .error e := by
  induction fields generalizing off result with
  | nil => exact absurd (fun p hp => by simp [allPieces] at hp) ha
  | cons f rest ih =>
    obtain ⟨name, value⟩ := f
    obtain ⟨hfst, hrest⟩ := Readable.append value.pieces (allPieces rest) h
    have hh' : DiffusionTransferManager.NoHoles rest :=
      fun n ts hm => hh n ts (.tail _ hm)
    rw [fieldsAt]
    by_cases hafst : SlotAligned handle value.pieces
    · have harest : ¬ SlotAligned handle (allPieces rest) :=
        fun hr => ha (forall_mem_append.2 ⟨hafst, hr⟩)
      have hfield := Readable.readField (fun ts hv => hh name ts (by simp [hv])) hfst hafst
      split
      · exact ih _ hh' hrest harest
      · rw [TransferTensorBuffer.readFields, hfield]
        split
        · exact ⟨_, rfl⟩
        · exact ih _ hh' hrest harest
        · exact ih _ hh' hrest harest
    · obtain ⟨e, he⟩ := hfst.readField_misaligned hafst
      have hne : value.pieces ≠ [] := fun hnil => hafst (by simp [SlotAligned, hnil])
      rw [if_neg hne, TransferTensorBuffer.readFields, he]
      exact ⟨e, rfl⟩

end

end TransferTensorBuffer

/-! ## The round trip -/

/-- `staged.slot.size if staged.slot else 0`: the size that the STAGED or DONE message announces. -/
def StagedTransfer.dataSize (st : StagedTransfer) : Nat :=
  match st.slot with
  | some slot => slot.size
  | none => 0

namespace DiffusionTransferManager

open TransferTensorBuffer

/-- The first `data_size` bytes of the sender's slot are in the receiver's slot. -/
def Copied (sender : Memory) (st : StagedTransfer) (receiver : Memory) (slot : SlotHandle) : Prop :=
  ∀ s, st.slot = some s → ∀ i < st.dataSize, receiver (slot.offset + i) = sender (s.offset + i)

/-- The reader returns exactly what every field should arrive as. -/
def RoundTrip (fields : Dict String FieldValue) (outcome : Except PyError (Dict String FieldValue)) :
    Prop :=
  ∃ r, outcome = .ok r ∧ ∀ name, r.get? name = (fields.get? name).bind FieldValue.received

/-- All fields are `None`; or some tensor has elements, no field is an empty list, and the receive
    slot starts at a multiple of every element size. -/
def TripCondition (fields : Dict String FieldValue) (slot : SlotHandle) : Prop :=
  (∀ name v, fields.get? name = some v → v = .none) ∨
    ((∃ p ∈ allPieces fields.entries, 0 < p.2.nbytes) ∧
      (∀ name, fields.get? name ≠ some (.list [])) ∧ SlotAligned slot (allPieces fields.entries))

theorem bytes_pos_iff (fields : List (String × FieldValue)) :
    0 < bytes fields ↔ ∃ p ∈ allPieces fields, 0 < p.2.nbytes := by
  rw [bytes, sizes, Nat.pos_iff_ne_zero, ne_eq, sum_eq_zero_iff]
  simp [Nat.pos_iff_ne_zero]

theorem staged_cases {m m' : DiffusionTransferManager} {requestId : RequestId}
    {fields : Dict String FieldValue} {scalarFields : Option ScalarFields} {cuda event : Bool}
    {st : StagedTransfer} (h : m.WellFormed)
    (hst : m.stageTensorsAsync requestId fields scalarFields cuda = (.ok (some st, event), m')) :
    NoHoles fields.entries ∧
      ((bytes fields.entries = 0 ∧ st.slot = none ∧ st.manifest = Dict.empty) ∨
        (0 < bytes fields.entries ∧ ∃ slot, st.slot = some slot ∧
          st.manifest.entries = fieldsAt 0 fields.entries ∧
          Layout.Fits 512 0 (sizes (allPieces fields.entries)) slot.size ∧
          Holds m'.buffer.pool slot.offset 0 (allPieces fields.entries))) := by
  have hsync := withoutEvent_stageTensorsAsync m requestId fields scalarFields cuda
  rw [hst] at hsync
  have hstages := stageTensors_stages h requestId fields scalarFields
  rw [← hsync] at hstages
  cases hstages with
  | zero hh hz => exact ⟨hh, .inl ⟨hz, rfl, rfl⟩⟩
  | written hh hpos _ _ _ hw hm => exact ⟨hh, .inr ⟨hpos, _, rfl, hm, hw.2, writeAll_holds ..⟩⟩

theorem arrived_eq_received_iff (hh : ∀ ts, value = .list ts → none ∉ ts) :
    arrived value = value.received ↔ value ≠ .list [] := by
  cases value with
  | none => simp [arrived, FieldValue.pieces, FieldValue.received]
  | tensor t => simp [arrived, FieldValue.pieces]
  | list ts =>
    obtain ⟨us, rfl⟩ := exists_map_some (hh ts rfl)
    cases us with
    | nil => simp [arrived, FieldValue.pieces, FieldValue.indexed, FieldValue.received]
    | cons t rest => simp [arrived, FieldValue.pieces, FieldValue.indexed]

theorem roundTrip_iff_of_readable {fields : Dict String FieldValue} {manifest : Manifest}
    {recv : TransferTensorBuffer} {slot : SlotHandle} (hh : NoHoles fields.entries)
    (hm : manifest.entries = fieldsAt 0 fields.entries)
    (hr : recv.Readable slot 0 (allPieces fields.entries)) :
    RoundTrip fields (recv.readTensorsFromManifest slot manifest) ↔
      (∀ name, fields.get? name ≠ some (.list [])) ∧ SlotAligned slot (allPieces fields.entries) := by
  unfold RoundTrip readTensorsFromManifest
  rw [hm]
  by_cases ha : SlotAligned slot (allPieces fields.entries)
  · obtain ⟨r, hread, hget⟩ := Readable.readFields Dict.empty hh hr fields.nodup ha
    have hfield : ∀ name, r.get? name = (fields.get? name).bind FieldValue.received
        ↔ fields.get? name ≠ some (.list []) := by
      intro name
      rw [hget, Dict.get?_empty, Option.or_none]
      change (fields.get? name).bind arrived = _ ↔ _
      cases hv : fields.get? name with
      | none => simp
      | some v =>
        have hhv : ∀ ts, v = .list ts → none ∉ ts :=
          fun ts he => hh name ts (he ▸ Dict.mem_entries.2 hv)
        simpa using arrived_eq_received_iff hhv
    simp only [hread, Except.ok.injEq, exists_eq_left', hfield, ha, and_true]
  · obtain ⟨e, he⟩ := Readable.readFields_misaligned Dict.empty hh hr ha
    simp [he, ha]

/-- **A staged transfer survives the trip exactly under `TripCondition`**: a transfer whose tensors
    have no elements loses all its fields, and an empty list never arrives. -/
theorem transfer_roundTrip_iff {m m' : DiffusionTransferManager} {requestId : RequestId}
    {fields : Dict String FieldValue} {scalarFields : Option ScalarFields} {cuda event : Bool}
    {st : StagedTransfer} {recv : TransferTensorBuffer} {slot : SlotHandle} (h : m.WellFormed)
    (hsup : ∀ p ∈ allPieces fields.entries, p.2.dtype.Supported)
    (hst : m.stageTensorsAsync requestId fields scalarFields cuda = (.ok (some st, event), m'))
    (hin : recv.Inside slot) (hsize : st.dataSize ≤ slot.size)
    (hcopy : Copied m'.buffer.pool st recv.pool slot) :
    RoundTrip fields (recv.readTensorsFromManifest slot st.manifest) ↔ TripCondition fields slot := by
  obtain ⟨hh, ⟨hz, -, hm⟩ | ⟨hpos, s, hs, hm, hfit, hholds⟩⟩ := staged_cases h hst
  · -- the manifest is empty: only `None` fields may be missing
    have hno : ¬ ∃ p ∈ allPieces fields.entries, 0 < p.2.nbytes := by
      rw [← bytes_pos_iff, hz]
      exact Nat.lt_irrefl 0
    have hread : recv.readTensorsFromManifest slot st.manifest = .ok Dict.empty := by rw [hm]; rfl
    simp only [RoundTrip, hread, Except.ok.injEq, exists_eq_left', TripCondition, hno, false_and,
      or_false, Dict.get?_empty]
    refine forall_congr' fun name => ?_
    cases fields.get? name with
    | none => simp
    | some v => cases v <;> simp [FieldValue.received]
  · have hdata : st.dataSize = s.size := by rw [StagedTransfer.dataSize, hs]
    rw [hdata] at hsize
    have hr : recv.Readable slot 0 (allPieces fields.entries) :=
      ⟨hin, hholds.congr hfit (fun i hi => hcopy s hs i (by omega)),
        fun p hp => (hfit p hp).trans hsize, hsup, Nat.dvd_zero _⟩
    have hsome : ¬ ∀ name v, fields.get? name = some v → v = .none := by
      intro hall
      obtain ⟨p, hp, -⟩ := (bytes_pos_iff _).1 hpos
      obtain ⟨f, hf, hpf⟩ := mem_flatMap.1 hp
      rw [hall f.1 f.2 (Dict.mem_entries.1 hf)] at hpf
      cases hpf
    rw [roundTrip_iff_of_readable hh hm hr, TripCondition, ← bytes_pos_iff]
    simp only [hsome, hpos, false_or, true_and]

/-- Four staged bytes survive the copy to another pool. -/
theorem transfer_roundTrip_four_bytes :
    ∃ b st m', TransferTensorBuffer.new (2 ^ 22) (2 ^ 20) (fun _ => 0) = .ok b ∧
      (new "session" 0 b).stageTensorsAsync (some "r")
        (Dict.empty.set "latents" (.tensor (byteTensor 4))) none true = (.ok (some st, true), m') ∧
      RoundTrip (Dict.empty.set "latents" (.tensor (byteTensor 4)))
        (readTensorsFromManifest ⟨b.allocator, m'.buffer.pool⟩
          { requestId := some "r", offset := 0, size := 2 ^ 20 } st.manifest) := by
  have hstage : ∃ b st m', TransferTensorBuffer.new (2 ^ 22) (2 ^ 20) (fun _ => 0) = .ok b ∧
      (new "session" 0 b).stageTensorsAsync (some "r")
        (Dict.empty.set "latents" (.tensor (byteTensor 4))) none true = (.ok (some st, true), m') ∧
      st.slot = some { requestId := some "r", offset := 0, size := 2 ^ 20 } ∧
      b.allocator.poolSize = 2 ^ 22 := ⟨_, _, _, rfl, rfl, rfl, rfl⟩
  obtain ⟨b, st, m', hb, hst, hslot, hpool⟩ := hstage
  refine ⟨b, st, m', hb, hst, (transfer_roundTrip_iff (new_wellFormed hb "session" 0) ?_ hst ?_ ?_ ?_).2 ?_⟩
  · decide
  · rw [Inside, hpool]
    decide
  · rw [StagedTransfer.dataSize, hslot]
  · intro s hs i _
    rw [hslot] at hs
    cases hs
    rfl
  · refine .inr ⟨?_, fun name hname => ?_, ?_⟩
    · decide
    · rw [Dict.get?_set] at hname
      split at hname <;> cases hname
    · unfold SlotAligned
      decide

def emptyTensor : Tensor :=
  { shape := [0, 4], stride := [4, 1], dtype := .float32, data := []
    strideLength := rfl, dataLength := rfl }

/-- A transfer of one tensor without elements is staged with an empty manifest, and no receiver gets
    the field back. -/
theorem transfer_loses_empty_tensor :
    ∃ b st m', TransferTensorBuffer.new (2 ^ 22) (2 ^ 20) (fun _ => 0) = .ok b ∧
      (new "session" 0 b).stageTensorsAsync (some "r")
        (Dict.empty.set "latents" (.tensor emptyTensor)) none true = (.ok (some st, false), m') ∧
      ∀ recv slot, ¬ RoundTrip (Dict.empty.set "latents" (.tensor emptyTensor))
        (readTensorsFromManifest recv slot st.manifest) := by
  refine ⟨_, _, _, rfl, rfl, fun recv slot htrip => ?_⟩
  obtain ⟨r, hr, hget⟩ := htrip
  cases hr
  cases hget "latents"

end DiffusionTransferManager
