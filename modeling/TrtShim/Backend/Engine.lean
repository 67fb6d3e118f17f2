import TrtShim.Backend.SplitIo

/-! # Building and running an engine

`buildIos` makes the list of IO tensors of an engine and `run` runs an engine. A
static engine binds the caller's buffers directly; a dynamic engine stages its
inputs and results through host memory.
-/

namespace TrtShim.Backend

open Std

/-- The caller's buffers, by the names of the IO tensors. -/
abbrev DevicePtrs := TreeMap Bytes Ptr

/-- The concrete dimensions of inputs, by their names. -/
abbrev ConcreteDims := TreeMap Bytes (List Int64)

/-- A dynamic input axis described by an optimization profile. -/
structure DynamicAxis where
  input : Bytes := []
  axis : Int32 := 0
  min : Int64 := 1
  opt : Int64 := 1
  max : Int64 := 1

/-- The body of the loop of `build` that marks the dynamic dimensions. -/
def markDynamic (dyn : DynamicAxis) (io : IOTensor) : IOTensor :=
  let io :=
    if io.dir = .kInput ∧ io.name = dyn.input ∧ 0 ≤ dyn.axis ∧
        dyn.axis < Int32.ofNat io.dims.length then
      { io with dims := io.dims.set dyn.axis.toNatClampNeg (-1) }
    else io
  if io.dir = .kOutput ∧ io.dims ≠ [] then { io with dims := io.dims.set 0 (-1) } else io

/-- The IO list of `build`. The parameters are those of the compiled program if the engine is
static, and those of the program that `introspect` compiles if it is dynamic. -/
def buildIos (dyn : Option DynamicAxis) (shapes : List (Bytes × Shape))
    (onnxNames : List Bytes) : Option (List IOTensor) := do
  let (inputs, outputs) ← splitIo shapes onnxNames
  match dyn with
  | none => return inputs ++ outputs
  | some dyn => return (inputs ++ outputs).map (markDynamic dyn)

/-- `EngineImpl`, with the members that its constructor computes as functions. -/
structure EngineImpl (M : Migraphx) where
  prog : M.Program
  ios : List IOTensor

/-- An attempted `hipMemcpy` of the result at a position to a caller's buffer. -/
structure Copy where
  dst : Ptr
  oi : ℕ
  arg : Argument
  deriving DecidableEq

/-- What a run did: the parameters with which it called MIGraphX, the copies to the caller's
buffers, and the value returned. -/
structure Run where
  returned : Bool
  started : Option ProgramParameters := none
  copies : List Copy := []
  deriving DecidableEq

namespace EngineImpl

variable {M : Migraphx} (e : EngineImpl M)

/-- `inputs_`. -/
def inputs : TreeMap Bytes IOTensor :=
  OrderedMap.fill ∅ ((e.ios.filter fun io => io.dir = .kInput).map fun io => (io.name, io))

/-- `outputs_`. -/
def outputs : List IOTensor := e.ios.filter fun io => io.dir ≠ .kInput

/-- `zero_copy_`. -/
def zeroCopy : Bool := (M.getParameterShapes e.prog).any fun p => isOutputParam p.1

/-- `dynamic_batch`. -/
def dynamicBatch (concrete : ConcreteDims) : Int64 :=
  let batches := concrete.toList.findSome? fun kv => do
    let io ← e.inputs[kv.1]?
    (io.dims.zip kv.2).findSome? fun d => if d.1 < 0 then some d.2 else none
  batches.getD 1

/-- `resolve`. -/
def resolve (dims : List Int64) (batch : Int64) : List Int64 :=
  dims.map fun d => if d < 0 then batch else d

/-- The datatype for a parameter that is no output; `4` is `migraphx_shape_float_type`. -/
def inputDatatype (name : Bytes) : Int32 :=
  match e.inputs[name]? with
  | some io => io.datatype
  | none => 4

/-- The values of `io_name`, `dims` and `dt` in the loop of `run_zero_copy`. -/
def lookupParam (concrete : ConcreteDims) (pname : Bytes) :
    Option (Bytes × List Int64 × Int32) :=
  let batch := e.dynamicBatch concrete
  if isOutputParam pname then do
    let idx ← outputIndex pname
    let out ← if idx < 0 then none else e.outputs[idx.toNat]?
    return (out.name, resolve out.dims batch, out.datatype)
  else
    let dims := match concrete[pname]?, e.inputs[pname]? with
      | some dims, _ => dims
      | none, some io => resolve io.dims batch
      | none, none => []
    return (pname, dims, e.inputDatatype pname)

/-- The body of the loop of `run_zero_copy`, which adds one parameter. -/
def bindParam (devicePtrs : DevicePtrs) (concrete : ConcreteDims) (pname : Bytes) :
    Option (Bytes × Argument) := do
  let (ioName, dims, dt) ← e.lookupParam concrete pname
  let ptr ← devicePtrs[ioName]?
  return (pname, ⟨M.shape dt (dims.map Int64.toUInt64), .device ptr⟩)

/-- `run_zero_copy`. -/
def runZeroCopy (devicePtrs : DevicePtrs) (concrete : ConcreteDims) (stream : Ptr) : Run :=
  let names := (M.getParameterShapes e.prog).map Prod.fst
  match names.mapM (e.bindParam devicePtrs concrete) with
  | none => { returned := false }
  | some params =>
    let returned :=
      if stream ≠ 0 then (M.runAsync e.prog params stream).isOk
      else (M.eval e.prog params).isOk
    { returned, started := some params }

/-- The body of the loop of `run_staged` over the parameters. -/
def stageParam (hip : Hip) (devicePtrs : DevicePtrs) (concrete : ConcreteDims)
    (p : Bytes × Shape) : Option (Bytes × Argument) := do
  let s := match concrete[p.1]? with
    | some dims => M.shape (e.inputDatatype p.1) (dims.map Int64.toUInt64)
    | none => p.2
  let src ← devicePtrs[p.1]?
  let staging ← hip.toHost src s.bytes
  return (p.1, ⟨s, .host staging⟩)

/-- The loop of `run_staged` over `outputs_`, with the counter `oi`. -/
def deliver (hip : Hip) (devicePtrs : DevicePtrs) (results : List Argument) :
    ℕ → List IOTensor → Bool × List Copy
  | _, [] => (true, [])
  | oi, out :: outs =>
    match results[oi]?, devicePtrs[out.name]? with
    | some arg, some dst =>
      if hip.toDevice dst arg then
        let (returned, copies) := deliver hip devicePtrs results (oi + 1) outs
        (returned, ⟨dst, oi, arg⟩ :: copies)
      else (false, [⟨dst, oi, arg⟩])
    | _, _ => (false, [])

/-- `run_staged`. -/
def runStaged (hip : Hip) (devicePtrs : DevicePtrs) (concrete : ConcreteDims) : Run :=
  match (M.getParameterShapes e.prog).mapM (e.stageParam hip devicePtrs concrete) with
  | none => { returned := false }
  | some params =>
    match M.eval e.prog params with
    | .error _ => { returned := false, started := some params }
    | .ok results =>
      let (returned, copies) := deliver hip devicePtrs results 0 e.outputs
      { returned, started := some params, copies }

/-- `EngineImpl::run`. -/
def run (hip : Hip) (devicePtrs : DevicePtrs) (concrete : ConcreteDims) (stream : Ptr) : Run :=
  if e.zeroCopy then e.runZeroCopy devicePtrs concrete stream
  else e.runStaged hip devicePtrs concrete

end EngineImpl

/-- A MIGraphX interface whose calls succeed and whose only program has these parameters and
results. -/
def Migraphx.single (params : List (Bytes × Shape)) (results : List Argument) : Migraphx where
  Program := Unit
  getParameterShapes _ := params
  shape type lengths := ⟨type, lengths, lengths.prod, 4 * lengths.prod⟩
  save _ := .ok [77]
  load _ := .ok ()
  eval _ _ := .ok results
  runAsync _ _ _ := .ok ()

end TrtShim.Backend
