import TrtShim.Backend.Buffers
import TrtShim.Shim.Dims
import TrtShim.Shim.Names

/-! # Execution contexts

A context holds the buffers and the input shapes that were set last under each
name, and `enqueueV3` runs the engine on them. `executeV2` takes its buffers by
position from the caller and makes the same run as setting them one by one.
-/

namespace TrtShim.Shim

open Std Backend

variable {M : Migraphx}

/-- The calls that write to a context or run the engine. -/
inductive ContextCall where
  | setTensorAddress (name : Bytes) (data : Ptr)
  | setInputShape (name : Bytes) (dims : ValidDims)
  | executeV2 (bindings : ℕ → Ptr)
  | enqueueV3 (stream : Ptr)

/-- `createExecutionContext`. -/
def ShimEngine.createExecutionContext (e : ShimEngine M) : ShimContext M where
  engine := e.engine

namespace ShimContext

variable (c : ShimContext M) (hip : Hip)

/-- `setTensorAddress`. -/
def setTensorAddress (name : Bytes) (data : Ptr) : ShimContext M :=
  { c with addrs := c.addrs.insert name data }

/-- `setInputShape`. -/
def setInputShape (name : Bytes) (dims : ValidDims) : ShimContext M :=
  { c with shapes := c.shapes.insert name dims.1.entries }

/-- `enqueueV3`. -/
def enqueueV3 (stream : Ptr) : Run := c.engine.run hip c.addrs c.shapes stream

/-- The run that a call makes, and the context after it. -/
def call : ContextCall → Option Run × ShimContext M
  | .setTensorAddress name data => (none, c.setTensorAddress name data)
  | .setInputShape name dims => (none, c.setInputShape name dims)
  | .executeV2 bindings => (some (c.executeV2 hip bindings), c)
  | .enqueueV3 stream => (some (c.enqueueV3 hip stream), c)

/-- The context after a history of calls. -/
def after (calls : List ContextCall) : ShimContext M :=
  calls.foldl (fun c call => (c.call hip call).2) c

end ShimContext

/-- The buffers that a history sets. -/
def addressWrites (calls : List ContextCall) : List (Bytes × Ptr) :=
  calls.filterMap fun
    | .setTensorAddress name data => some (name, data)
    | _ => none

/-- The input shapes that a history sets. -/
def shapeWrites (calls : List ContextCall) : List (Bytes × List Int64) :=
  calls.filterMap fun
    | .setInputShape name dims => some (name, dims.1.entries)
    | _ => none

/-- `setTensorAddress(getIOTensorName(i), bindings[i])` for every `i`. There are no such calls if
some position has no name. -/
def ShimEngine.bindCalls (e : ShimEngine M) (bindings : ℕ → Ptr) : Option (List ContextCall) :=
  (List.range e.ios.length).mapM fun i =>
    (e.getIOTensorName (Int32.ofNat i)).map fun name => .setTensorAddress name (bindings i)

section After

variable (c : ShimContext M) (hip : Hip)

theorem after_eq (calls : List ContextCall) : c.after hip calls =
    ⟨c.engine, OrderedMap.fill c.addrs (addressWrites calls),
      OrderedMap.fill c.shapes (shapeWrites calls)⟩ := by
  induction calls generalizing c with
  | nil => rfl
  | cons call calls ih =>
    have hstep : c.after hip (call :: calls) = (c.call hip call).2.after hip calls := rfl
    rw [hstep, ih]
    cases call <;> rfl

theorem after_append (calls calls' : List ContextCall) :
    c.after hip (calls ++ calls') = (c.after hip calls).after hip calls' := List.foldl_append

end After

/-- Names that are C strings reach the context as they are. -/
theorem bindCalls_eq {e : ShimEngine M} (hzero : ∀ io ∈ e.ios, 0 ∉ io.name)
    (hlen : e.ios.length < 2 ^ 31) (bindings : ℕ → Ptr) : e.bindCalls bindings =
      some (e.ios.zipIdx.map fun p => .setTensorAddress p.1.name (bindings p.2)) := by
  rw [ShimEngine.bindCalls, Lists.mapM_eq_some_iff]
  ext i : 1
  simp only [List.getElem?_map, List.getElem?_zipIdx, Nat.zero_add]
  by_cases hi : i < e.ios.length
  · have hio : e.ios[i]? = some e.ios[i] := List.getElem?_eq_getElem hi
    rw [List.getElem?_range hi, hio]
    simp only [Option.map_some]
    rw [getIOTensorName_of_lt hlen hio, cStr_eq_self.mpr (hzero _ (List.getElem_mem hi)),
      Option.map_some]
  · rw [List.getElem?_eq_none (Nat.le_of_not_lt hi),
      List.getElem?_eq_none (by simpa using Nat.le_of_not_lt hi)]
    rfl

theorem addressWrites_binds (ios : List IOTensor) (bindings : ℕ → Ptr) :
    addressWrites (ios.zipIdx.map fun p => .setTensorAddress p.1.name (bindings p.2)) =
      ios.zipIdx.map fun p => (p.1.name, bindings p.2) := by
  rw [addressWrites, List.filterMap_map]
  exact congrFun List.filterMap_eq_map' _

theorem shapeWrites_binds (ios : List IOTensor) (bindings : ℕ → Ptr) :
    shapeWrites (ios.zipIdx.map fun p => .setTensorAddress p.1.name (bindings p.2)) = [] := by
  rw [shapeWrites, List.filterMap_map]
  exact List.filterMap_eq_nil_iff.mpr fun _ _ => rfl

/-- The names among which a run looks for its buffers are all names of IO tensors. -/
theorem run_eq_of_ios {e : EngineImpl M} {hip : Hip} {devicePtrs devicePtrs' : DevicePtrs}
    {concrete : ConcreteDims} {stream : Ptr}
    (hcover : ∀ p ∈ M.getParameterShapes e.prog, isOutputParam p.1 = false →
      ∃ io ∈ e.ios, io.name = p.1)
    (h : ∀ io ∈ e.ios, devicePtrs[io.name]? = devicePtrs'[io.name]?) :
    e.run hip devicePtrs concrete stream = e.run hip devicePtrs' concrete stream := by
  apply EngineImpl.run_congr
  · exact fun io hio => h io (List.mem_of_mem_filter hio)
  · intro p hp hin
    obtain ⟨io, hio, hname⟩ := hcover p hp hin
    exact hname ▸ h io hio

/-- If the names of the IO tensors are C strings and an `int32_t` numbers them, then after every
history `executeV2` makes the run that `enqueueV3` makes on the null stream once the bindings have
been set one by one. It leaves the context as it was, so a later `enqueueV3` runs the engine on
the buffers and the shapes last set under each name. -/
theorem executeV2_eq_enqueueV3 (M : Migraphx) (hip : Hip) (e : ShimEngine M)
    (calls : List ContextCall) (bindings : ℕ → Ptr)
    (hcover : ∀ p ∈ M.getParameterShapes e.engine.prog, isOutputParam p.1 = false →
      ∃ io ∈ e.ios, io.name = p.1)
    (hzero : ∀ io ∈ e.ios, 0 ∉ io.name) (hlen : e.ios.length < 2 ^ 31) :
    let c := e.createExecutionContext.after hip calls
    (∃ binds, e.bindCalls bindings = some binds ∧
      c.executeV2 hip bindings = (c.after hip binds).enqueueV3 hip 0) ∧
    (c.call hip (.executeV2 bindings)).2 = c ∧
    ∀ later : List ContextCall,
      let c' := c.after hip (.executeV2 bindings :: later)
      (∀ name, c'.addrs[name]? = Lists.lastValue (addressWrites (calls ++ later)) name) ∧
      (∀ name, c'.shapes[name]? = Lists.lastValue (shapeWrites (calls ++ later)) name) ∧
      ∀ stream, c'.enqueueV3 hip stream = e.engine.run hip c'.addrs c'.shapes stream := by
  intro c
  have hengine : c.engine = e.engine := by
    change (e.createExecutionContext.after hip calls).engine = _
    rw [after_eq]
    rfl
  refine ⟨⟨_, bindCalls_eq hzero hlen bindings, ?_⟩, rfl, ?_⟩
  · rw [after_eq, addressWrites_binds, shapeWrites_binds]
    apply run_eq_of_ios (hengine ▸ hcover)
    rw [hengine]
    intro io hio
    obtain ⟨i, hi⟩ := List.getElem?_of_mem hio
    have hmem : (io.name, bindings i) ∈ e.ios.zipIdx.map fun p => (p.1.name, bindings p.2) :=
      List.mem_map.mpr ⟨(io, i), List.mk_mem_zipIdx_iff_getElem?.mpr hi, rfl⟩
    exact OrderedMap.getElem?_fill_congr ∅ c.addrs (List.mem_map.mpr ⟨_, hmem, rfl⟩)
  · intro later c'
    have hc' : c' = e.createExecutionContext.after hip (calls ++ later) :=
      (after_append _ hip calls later).symm
    rw [hc', after_eq]
    refine ⟨fun name => ?_, fun name => ?_, fun stream => rfl⟩
    · rw [OrderedMap.getElem?_fill]
      exact Option.or_none
    · rw [OrderedMap.getElem?_fill]
      exact Option.or_none

theorem executeV2_eq_enqueueV3_stale :
    let ps := ParameterSet.withOutputs [0] (by decide) (by decide)
    let e : ShimEngine (.single ps.entries []) :=
      ⟨⟨(), [inputTensor (text "x", floatPair), outputTensor [] (0, floatPair)]⟩, ⟨[], by decide⟩⟩
    let c := e.createExecutionContext.after .plain
      [.setTensorAddress (text "x") 7, .setTensorAddress (text "unknown") 0]
    let bindings := fun i => UInt64.ofNat (16 * (i + 1))
    ∃ binds, e.bindCalls bindings = some binds ∧
      c.executeV2 .plain bindings = (c.after .plain binds).enqueueV3 .plain 0 := by
  intro ps e c bindings
  exact (executeV2_eq_enqueueV3 _ .plain e _ bindings (by decide +kernel) (by decide +kernel)
    (by decide)).1

/-- The name of the output is no C string, so the address set under what the interface returns of
it is not found. -/
theorem enqueueV3_zero_byte :
    let name := text "y" ++ [0] ++ text "z"
    let e : ShimEngine (.single [(text "main:#output_0", floatPair)] []) :=
      ⟨⟨(), [ioFromShape name floatPair .kOutput]⟩, ⟨[], by decide⟩⟩
    let c := e.createExecutionContext
    (∀ p ∈ [(text "main:#output_0", floatPair)], isOutputParam p.1 = false →
      ∃ io ∈ e.ios, io.name = p.1) ∧
    ∃ binds, e.bindCalls (fun _ => 16) = some binds ∧
      (c.executeV2 .plain fun _ => 16).started.isSome ∧
      (c.after .plain binds).enqueueV3 .plain 0 = { returned := false } := by
  intro name e c
  refine ⟨?_, _, rfl, by decide +kernel, by decide +kernel⟩
  rintro p (_ | ⟨_, ⟨⟩⟩) hin
  exact absurd hin (by decide +kernel)

end TrtShim.Shim
