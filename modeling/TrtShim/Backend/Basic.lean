import Mathlib.Data.UInt
import TrtShim.Bytes.Words

/-! # Tensors and the MIGraphX interface

The plain types that the backend exchanges with the shim, and the part of the
MIGraphX and HIP interfaces that it calls. MIGraphX and HIP are not part of the
repository, so their calls are the fields of `Migraphx` and `Hip`.
-/

namespace TrtShim

/-- The bytes of an ASCII string literal. -/
def text (s : String) : Bytes := s.toList.map fun c => UInt8.ofNat c.toNat

/-- A `void*`. -/
abbrev Ptr := UInt64

namespace Backend

/-- `enum class IODir : uint8_t`. Every byte is a value of the type; two of them have names. -/
structure IODir where
  val : UInt8
  deriving DecidableEq

def IODir.kInput : IODir := ⟨0⟩
def IODir.kOutput : IODir := ⟨1⟩

/-- A model input or output, with its MIGraphX datatype. -/
structure IOTensor where
  name : Bytes := []
  dims : List Int64 := []
  datatype : Int32 := 0
  bytesPerElem : UInt64 := 0
  dir : IODir := .kInput
  deriving DecidableEq

/-- The inputs and outputs of a model. -/
structure IOInfo where
  inputs : List IOTensor := []
  outputs : List IOTensor := []
  deriving DecidableEq

/-- The builder flags that the shim forwards. -/
structure BuildOptions where
  fp16 : Bool := false
  int8 : Bool := false
  bf16 : Bool := false
  deriving DecidableEq

/-- What the accessors of a `migraphx::shape` return. -/
structure Shape where
  type : Int32
  lengths : List UInt64
  elements : UInt64
  bytes : UInt64
  deriving DecidableEq

/-- The memory behind an argument: a caller's device buffer, or host bytes. -/
inductive Memory where
  | device (p : Ptr)
  | host (bytes : Bytes)
  deriving DecidableEq

/-- A `migraphx::argument`. -/
structure Argument where
  shape : Shape
  data : Memory
  deriving DecidableEq

/-- The arguments added to a `migraphx::program_parameters`, in the order of the calls. -/
abbrev ProgramParameters := List (Bytes × Argument)

/-- The MIGraphX calls. A call that throws returns the text of the exception. -/
structure Migraphx where
  Program : Type
  /-- `get_parameter_shapes()`, in the order in which `names()` lists them. -/
  getParameterShapes : Program → List (Bytes × Shape)
  /-- The constructor of `migraphx::shape` from a datatype and lengths. -/
  shape : Int32 → List UInt64 → Shape
  /-- The contents of the file that `migraphx::save` writes. -/
  save : Program → Except String Bytes
  /-- `migraphx::load` of a file with the given contents. -/
  load : Bytes → Except String Program
  eval : Program → ProgramParameters → Except String (List Argument)
  runAsync : Program → ProgramParameters → Ptr → Except String Unit

/-- The calls of `hipMemcpy`. -/
structure Hip where
  /-- Copy bytes from the device to a new host buffer; no value stands for a failure. -/
  toHost : Ptr → UInt64 → Option Bytes
  /-- Whether copying the bytes of an argument to the device succeeds. -/
  toDevice : Ptr → Argument → Bool

end Backend

end TrtShim
