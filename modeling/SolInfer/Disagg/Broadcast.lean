import SolInfer.Lib.Dict
import SolInfer.Lib.Json
import SolInfer.Lib.Sparse
import SolInfer.Transport.Tensor

set_option autoImplicit false

/-! # Broadcasting the tensors of a request from rank 0

`scheduler_mixin.py`: `broadcast_tensor_dict` takes tensors and nested dictionaries but no lists, so
a list is sent as a dictionary from the decimal indices of its tensors, marked by `__is_list__`, and
rebuilt by sorting the indices. The packing keeps the tensors of a list in order and forgets where the
`None`s were. -/

open List

namespace Broadcast

inductive Item where
  | none
  | flag (b : Bool)
  | tensor (t : Tensor)

/-- The value of a tensor field, before or after packing. -/
inductive Value where
  | tensor (t : Tensor)
  | list (items : List Item)
  | dict (sub : Dict String Item)

def listMarkerKey : String := "__is_list__"

/-! ## Packing -/

/-- The entry that an element of a list makes: tensors only. -/
def packItem (sub : Dict String Item) : Item × Nat → Dict String Item
  | (.tensor t, i) => sub.set (Nat.repr i) (.tensor t)
  | _ => sub

variable (items : List Item)

def packList : Dict String Item :=
  items.zipIdx.foldl packItem (Dict.empty.set listMarkerKey (.flag true))

/-- One round of `_pack_tensor_fields_for_broadcast`; anything but tensors and lists is dropped. -/
def packField (packed : Dict String Value) : String × Value → Dict String Value
  | (key, .tensor t) => packed.set key (.tensor t)
  | (key, .list items) => packed.set key (.dict (packList items))
  | (_, .dict _) => packed

/-- `_pack_tensor_fields_for_broadcast`. -/
def packTensorFields (tensorFields : Dict String Value) : Dict String Value :=
  tensorFields.entries.foldl packField Dict.empty

/-! ## Unpacking -/

/-- `int(k)`. -/
def pyInt (k : String) : Except PyError Int :=
  match Json.parseInt k with
  | some i => .ok i
  | none => .error (.valueError s!"invalid literal for int() with base 10: {k}")

def indexedEntry (e : String × Item) : Except PyError (Int × Item) := do
  return (← pyInt e.1, e.2)

/-- `value.get(_LIST_MARKER_KEY) is True`. -/
def isMarked (sub : Dict String Item) : Bool :=
  match sub.get? listMarkerKey with
  | some (.flag true) => true
  | _ => false

/-- The value of one field; the sort is stable, by index. -/
def unpackValue : Value → Except PyError Value
  | .dict sub =>
    if isMarked sub then do
      let indexed ← (sub.entries.filter (fun e => e.1 ≠ listMarkerKey)).mapM indexedEntry
      return .list ((indexed.mergeSort (fun a b => decide (a.1 ≤ b.1))).map Prod.snd)
    else .ok (.dict sub)
  | value => .ok value

def unpackField (out : Dict String Value) (e : String × Value) : Except PyError (Dict String Value) := do
  return out.set e.1 (← unpackValue e.2)

/-- `_unpack_tensor_fields_from_broadcast`. -/
def unpackTensorFields (packed : Dict String Value) : Except PyError (Dict String Value) :=
  packed.entries.foldlM unpackField Dict.empty

/-! ## What `extract_transfer_fields` accepts -/

namespace Item

def isTensor : Item → Bool
  | .tensor _ => true
  | _ => false

def isFlag : Item → Bool
  | .flag _ => true
  | _ => false

end Item

/-- `_is_tensor_like`: a tensor, or a list that begins with one. -/
def Value.isTensorLike : Value → Bool
  | .tensor _ => true
  | .list (first :: _) => first.isTensor
  | _ => false

/-- A field that the extraction puts among the tensors, with nothing but tensors and `None`s. -/
def Accepted : Value → Prop
  | .list items => (Value.list items).isTensorLike = true ∧ ∀ item ∈ items, item.isFlag = false
  | value => value.isTensorLike = true

/-! ## A list -/

namespace Item

def tensor? : Item → Option Tensor
  | .tensor t => some t
  | _ => Option.none

end Item

def tensorsOf : List (Nat × Tensor) := Sparse.indexed 0 (items.map Item.tensor?)

theorem foldl_packItem (i : Nat) (sub : Dict String Item) :
    (items.zipIdx i).foldl packItem sub
      = (Sparse.indexed i (items.map Item.tensor?)).foldl
          (fun sub p => sub.set (Nat.repr p.1) (.tensor p.2)) sub := by
  induction items generalizing i sub with
  | nil => rfl
  | cons item rest ih =>
    cases item with
    | none => exact ih (i + 1) sub
    | flag b => exact ih (i + 1) sub
    | tensor t => exact ih (i + 1) _

theorem repr_injective {i j : Nat} (h : Nat.repr i = Nat.repr j) : i = j := by
  have heq : some (i : Int) = some (j : Int) := by
    rw [← Json.parseInt_repr, h, Json.parseInt_repr]
  exact Int.ofNat.inj (Option.some.inj heq)

theorem repr_ne_listMarkerKey (i : Nat) : Nat.repr i ≠ listMarkerKey := by
  intro h
  have hparse := Json.parseInt_repr i
  rw [h, show Json.parseInt listMarkerKey = none by decide +kernel] at hparse
  cases hparse

theorem entries_packList :
    (packList items).entries = (listMarkerKey, Item.flag true)
      :: (tensorsOf items).map (fun p => (Nat.repr p.1, Item.tensor p.2)) := by
  have hnodup : ((tensorsOf items).map (fun p => Nat.repr p.1)).Nodup := by
    rw [Nodup, pairwise_map]
    refine (Sparse.pairwise_indexed 0 _).imp fun {p q} hlt heq => ?_
    have := repr_injective heq
    omega
  have hfresh : ∀ p ∈ tensorsOf items,
      Nat.repr p.1 ∉ (Dict.empty.set listMarkerKey (Item.flag true)).keys := by
    intro p _ hmem
    rcases Dict.mem_keys_set.1 hmem with he | he
    · exact repr_ne_listMarkerKey p.1 he
    · cases he
  rw [packList, foldl_packItem]
  exact Dict.entries_foldl_set hnodup hfresh

theorem isMarked_packList : isMarked (packList items) = true := by
  have hget : (packList items).get? listMarkerKey = some (.flag true) := by
    rw [← Dict.mem_entries, entries_packList]
    exact mem_cons_self
  rw [isMarked, hget]

theorem tensorsOf_items (i : Nat) :
    (Sparse.indexed i (items.map Item.tensor?)).map (fun p => Item.tensor p.2)
      = items.filter Item.isTensor := by
  induction items generalizing i with
  | nil => rfl
  | cons item rest ih =>
    cases item with
    | none => exact ih (i + 1)
    | flag b => exact ih (i + 1)
    | tensor t => exact congrArg (Item.tensor t :: ·) (ih (i + 1))

theorem unpackValue_packList :
    unpackValue (.dict (packList items)) = .ok (.list (items.filter Item.isTensor)) := by
  have hfilter : (packList items).entries.filter (fun e => e.1 ≠ listMarkerKey)
      = (tensorsOf items).map (fun p => (Nat.repr p.1, Item.tensor p.2)) := by
    rw [entries_packList, filter_cons_of_neg (by simp), filter_eq_self]
    intro e he
    obtain ⟨p, -, rfl⟩ := mem_map.1 he
    simpa using repr_ne_listMarkerKey p.1
  have hindex : ∀ p ∈ tensorsOf items, indexedEntry (Nat.repr p.1, Item.tensor p.2)
      = .ok ((p.1 : Int), Item.tensor p.2) := by
    intro p _
    rw [indexedEntry, pyInt, Json.parseInt_repr]
    rfl
  have hsorted : ((tensorsOf items).map (fun p => ((p.1 : Int), Item.tensor p.2))).Pairwise
      (fun a b => decide (a.1 ≤ b.1) = true) := by
    rw [pairwise_map]
    refine (Sparse.pairwise_indexed 0 _).imp (fun {p q} hlt => ?_)
    exact decide_eq_true (show (p.1 : Int) ≤ q.1 by omega)
  rw [unpackValue, if_pos (isMarked_packList items), hfilter, mapM_map_ok _ hindex]
  show Except.ok (Value.list (((map _ _).mergeSort _).map Prod.snd)) = _
  rw [mergeSort_of_pairwise hsorted, map_map, ← tensorsOf_items items 0]
  rfl

/-! ## All fields -/

def returned : Value → Value
  | .list items => .list (items.filter Item.isTensor)
  | value => value

def sent : Value → Value
  | .list items => .dict (packList items)
  | value => value

variable {v : Value}

theorem unpackValue_sent (h : Accepted v) : unpackValue (sent v) = .ok (returned v) := by
  cases v with
  | tensor t => rfl
  | list items => exact unpackValue_packList items
  | dict sub => cases h

theorem entries_packTensorFields {fields : Dict String Value} (h : ∀ e ∈ fields.entries, Accepted e.2) :
    (packTensorFields fields).entries = fields.entries.map (fun e => (e.1, sent e.2)) := by
  have hstep : ∀ (l : List (String × Value)) (packed : Dict String Value), (∀ e ∈ l, Accepted e.2) →
      l.foldl packField packed = l.foldl (fun d e => d.set e.1 (sent e.2)) packed := by
    intro l packed hl
    refine foldl_ext _ _ _ fun d e he => ?_
    obtain ⟨key, v⟩ := e
    cases v with
    | tensor t => rfl
    | list items => rfl
    | dict sub => cases hl _ he
  rw [packTensorFields, hstep _ _ h]
  exact Dict.entries_foldl_set fields.nodup nofun

theorem foldlM_unpackField {l : List (String × Value)} (out : Dict String Value)
    (h : ∀ e ∈ l, Accepted e.2) :
    (l.map (fun e => (e.1, sent e.2))).foldlM unpackField out
      = .ok (l.foldl (fun d e => d.set e.1 (returned e.2)) out) := by
  induction l generalizing out with
  | nil => rfl
  | cons e rest ih =>
    rw [map_cons, foldlM_cons, unpackField, unpackValue_sent (h e mem_cons_self)]
    exact ih _ fun d hd => h d (.tail _ hd)

theorem unpackTensorFields_packed {fields : Dict String Value}
    (h : ∀ e ∈ fields.entries, Accepted e.2) :
    ∃ out, unpackTensorFields (packTensorFields fields) = .ok out ∧
      out.entries = fields.entries.map (fun e => (e.1, returned e.2)) := by
  refine ⟨fields.entries.foldl (fun d e => d.set e.1 (returned e.2)) Dict.empty, ?_, ?_⟩
  · rw [unpackTensorFields, entries_packTensorFields h]
    exact foldlM_unpackField Dict.empty h
  · exact Dict.entries_foldl_set fields.nodup nofun

theorem returned_eq_iff (h : Accepted v) :
    returned v = v ↔ ∀ items, v = .list items → ∀ item ∈ items, item.isTensor = true := by
  cases v with
  | tensor t => exact iff_of_true rfl nofun
  | list items =>
    constructor
    · intro heq items' he
      cases he
      exact filter_eq_self.1 (Value.list.inj heq)
    · intro hall
      exact congrArg Value.list (filter_eq_self.2 (hall items rfl))
  | dict sub => cases h

/-- **The packing for the broadcast is undone by the unpacking exactly when no list has a `None`.** -/
theorem unpackTensorFields_packTensorFields_iff {fields : Dict String Value}
    (h : ∀ name v, fields.get? name = some v → Accepted v) :
    unpackTensorFields (packTensorFields fields) = .ok fields ↔
      ∀ name items, fields.get? name = some (.list items) → ∀ item ∈ items, item.isTensor = true := by
  have haccepted : ∀ e ∈ fields.entries, Accepted e.2 :=
    fun e he => h e.1 e.2 (Dict.mem_entries.1 he)
  obtain ⟨out, hout, hentries⟩ := unpackTensorFields_packed haccepted
  have hiff : out = fields ↔ ∀ e ∈ fields.entries, returned e.2 = e.2 := by
    constructor
    · intro heq e he
      rw [heq] at hentries
      have hmap : fields.entries.map (fun e => (e.1, returned e.2)) = fields.entries.map id := by
        rw [← hentries, map_id]
      exact congrArg Prod.snd (map_inj_left.1 hmap e he)
    · intro hall
      refine Dict.ext (hentries.trans ?_)
      calc fields.entries.map (fun e => (e.1, returned e.2)) = fields.entries.map id :=
            map_congr_left fun e he => Prod.ext rfl (hall e he)
        _ = fields.entries := map_id _
  rw [hout, Except.ok.injEq, hiff]
  constructor
  · intro hall name items hget
    have hmem := Dict.mem_entries.2 hget
    exact (returned_eq_iff (haccepted _ hmem)).1 (hall _ hmem) items rfl
  · rintro hall ⟨name, v⟩ he
    refine (returned_eq_iff (haccepted _ he)).2 fun items hv => ?_
    exact hall name items (by rw [← hv]; exact Dict.mem_entries.1 he)

def byte (b : UInt8) : Tensor :=
  { shape := [1], stride := [1], dtype := .uint8, data := [b], strideLength := rfl, dataLength := rfl }

theorem eq_of_get?_single {key name : String} {w : Value}
    (h : (Dict.empty.set key v).get? name = some w) : w = v := by
  rw [Dict.get?_set] at h
  split at h
  · exact (Option.some.inj h).symm
  · cases h

/-- Eleven tensors come back in order, the one of index 10 after the one of index 9. -/
theorem unpackTensorFields_eleven_tensors :
    unpackTensorFields (packTensorFields (Dict.empty.set "prompt_embeds"
      (.list ((range 11).map (fun i => .tensor (byte (UInt8.ofNat i)))))))
      = .ok (Dict.empty.set "prompt_embeds"
          (.list ((range 11).map (fun i => .tensor (byte (UInt8.ofNat i)))))) := by
  refine (unpackTensorFields_packTensorFields_iff (fun name v hv => ?_)).2
    fun name items hv item hitem => ?_
  · rw [eq_of_get?_single hv]
    refine ⟨rfl, fun item hitem => ?_⟩
    obtain ⟨i, -, rfl⟩ := mem_map.1 hitem
    rfl
  · rw [Value.list.inj (eq_of_get?_single hv)] at hitem
    obtain ⟨i, -, rfl⟩ := mem_map.1 hitem
    rfl

/-- A `None` between two tensors is lost, and the second tensor moves up. -/
theorem unpackTensorFields_moves_tensor :
    unpackTensorFields (packTensorFields (Dict.empty.set "prompt_embeds"
        (.list [.tensor (byte 1), .none, .tensor (byte 2)])))
      = .ok (Dict.empty.set "prompt_embeds" (.list [.tensor (byte 1), .tensor (byte 2)])) ∧
    Accepted (.list [.tensor (byte 1), .none, .tensor (byte 2)]) := by
  have haccepted : Accepted (.list [.tensor (byte 1), .none, .tensor (byte 2)]) :=
    ⟨rfl, by simp [Item.isFlag]⟩
  have hentries : ∀ e ∈ (Dict.empty.set "prompt_embeds"
      (.list [.tensor (byte 1), .none, .tensor (byte 2)])).entries, Accepted e.2 := by
    intro e he
    rw [eq_of_get?_single (Dict.mem_entries.1 he)]
    exact haccepted
  refine ⟨?_, haccepted⟩
  exact foldlM_unpackField Dict.empty hentries

end Broadcast
