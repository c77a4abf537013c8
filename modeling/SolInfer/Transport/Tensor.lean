import SolInfer.Lib.Python
import SolInfer.Lib.Memory

set_option autoImplicit false

/-! # Tensors

What the transfer code sees of a `torch.Tensor`: shape, strides, dtype and the bytes of its elements
in row-major order. The strides matter for one operation only: `view` to a dtype of another element
size asks for a last dimension of stride one. -/

/-- The ten dtypes of `transport/codec.py`, and any other one with its name and element size. -/
inductive DType where
  | float16 | float32 | float64 | bfloat16
  | int8 | int16 | int32 | int64
  | uint8 | bool
  | other (name : String) (itemsize : Nat)
deriving DecidableEq, Repr

namespace DType

def elementSize : DType → Nat
  | float16 | bfloat16 | int16 => 2
  | float32 | int32 => 4
  | float64 | int64 => 8
  | int8 | uint8 | bool => 1
  | other _ itemsize => itemsize

/-- `str(dtype).replace("torch.", "")`. -/
def name : DType → String
  | float16 => "float16"
  | float32 => "float32"
  | float64 => "float64"
  | bfloat16 => "bfloat16"
  | int8 => "int8"
  | int16 => "int16"
  | int32 => "int32"
  | int64 => "int64"
  | uint8 => "uint8"
  | bool => "bool"
  | other n _ => n

/-- The keys of `_DTYPE_TO_STR`. -/
def table : List DType :=
  [float16, float32, float64, bfloat16, int8, int16, int32, int64, uint8, bool]

def strToDtype (s : String) : Except PyError DType :=
  match table.find? (fun d => d.name = s) with
  | some d => .ok d
  | none => .error (.valueError s!"Unknown dtype string: {s}")

def Supported (d : DType) : Prop := d ∈ table

instance (d : DType) : Decidable d.Supported := inferInstanceAs (Decidable (d ∈ table))

theorem strToDtype_name {d : DType} (h : d.Supported) : strToDtype d.name = .ok d := by
  have hall : ∀ d ∈ table, strToDtype d.name = .ok d := by decide
  exact hall d h

theorem elementSize_dvd {d : DType} (h : d.Supported) : d.elementSize ∣ 512 := by
  have hall : ∀ d ∈ table, d.elementSize ∣ 512 := by decide
  exact hall d h

end DType

/-- A tensor; `data` holds the elements in row-major order. -/
structure Tensor where
  shape : List Nat
  stride : List Nat
  dtype : DType
  data : List UInt8
  strideLength : stride.length = shape.length
  dataLength : data.length = shape.prod * dtype.elementSize

namespace Tensor

variable (t : Tensor)

/-- `nelement() * element_size()`. -/
def nbytes : Nat := t.shape.prod * t.dtype.elementSize

/-- Whether dimensions, from the last one on, are laid out with the strides `z`, `z * d`, …; a
    dimension of size one may have any stride. -/
def denseFrom : Nat → List (Nat × Nat) → Bool
  | _, [] => true
  | z, (d, s) :: rest => if d = 1 then denseFrom z rest else decide (s = z) && denseFrom (z * d) rest

/-- `is_contiguous()`: a tensor without elements always is. -/
def isContiguous : Bool :=
  decide (t.shape.prod = 0) || denseFrom 1 (t.shape.zip t.stride).reverse

def rowMajor : List Nat → List Nat
  | [] => []
  | [_] => [1]
  | _ :: d :: rest => ((rowMajor (d :: rest)).headD 1 * max d 1) :: rowMajor (d :: rest)

theorem length_rowMajor (shape : List Nat) : (rowMajor shape).length = shape.length := by
  induction shape with
  | nil => rfl
  | cons d rest ih =>
    cases rest with
    | nil => rfl
    | cons d' rest => rw [rowMajor, List.length_cons, ih, List.length_cons (a := d)]

/-- `contiguous()`: the tensor itself if it is contiguous, else a row-major copy. -/
def contiguous : Tensor :=
  if t.isContiguous then t
  else { t with stride := rowMajor t.shape, strideLength := length_rowMajor t.shape }

/-- Whether `view(torch.uint8)` accepts the tensor: one-byte elements, or at least one dimension
    and stride one in the last. -/
def viewsAsBytes : Bool :=
  decide (t.dtype.elementSize = 1) || decide (t.stride.getLast? = some 1)

/-- The exception of `view(torch.uint8)` on a tensor it does not accept. -/
def viewError : PyError :=
  if t.shape = [] then
    .runtimeError "self.dim() cannot be 0 to view as Byte (different element sizes)"
  else .runtimeError "self.stride(-1) must be 1 to view as Byte (different element sizes)"

/-- `raw.view(dtype).reshape(shape)` of the bytes at the storage offset `start`: they must be whole
    elements, the offset a multiple of the element size, and the shape must hold all elements. -/
def ofBytes (shape : List Nat) (dtype : DType) (start : Nat) (bytes : List UInt8) : Except PyError Tensor :=
  if h : bytes.length = shape.prod * dtype.elementSize then
    if dtype.elementSize ∣ start then
      .ok ⟨shape, rowMajor shape, dtype, bytes, length_rowMajor shape, h⟩
    else .error (.runtimeError "self.storage_offset() must be divisible by the element size")
  else .error (.runtimeError "shape is invalid for input of that size")

/-- What a reader can get of a tensor: the same shape, dtype and elements in row-major layout. -/
def received : Tensor :=
  { t with stride := rowMajor t.shape, strideLength := length_rowMajor t.shape }

/-- Whether `write_tensor` can view the tensor as bytes. -/
def Viewable : Prop := t.contiguous.viewsAsBytes = true

instance (t : Tensor) : Decidable t.Viewable :=
  inferInstanceAs (Decidable (t.contiguous.viewsAsBytes = true))

@[simp]
theorem contiguous_data : t.contiguous.data = t.data := by
  unfold contiguous
  split <;> rfl

@[simp]
theorem contiguous_nbytes : t.contiguous.nbytes = t.nbytes := by
  unfold contiguous
  split <;> rfl

end Tensor
