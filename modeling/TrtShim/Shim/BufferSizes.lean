import TrtShim.Backend.Sizes
import TrtShim.Shim.Inference
import TrtShim.Shim.Strides

/-! # The sizes of a client's buffers

A client multiplies the dimensions of a tensor with the bytes of a component to
get the size of its buffer. In a static engine this is the size of the shape with
which the run binds the buffer, so MIGraphX stays inside it.
-/

namespace TrtShim.Shim

open Std Backend RowMajor

variable {M : Migraphx}

/-- `nvinfer1::DataType`. -/
inductive DataType where
  | kFLOAT
  | kHALF
  | kINT8
  | kINT32
  | kBOOL
  | kUINT8
  | kFP8
  | kBF16
  | kINT64
  | kINT4
  deriving DecidableEq

/-- The value of an enumerator. -/
def DataType.val : DataType → Int32
  | kFLOAT => 0
  | kHALF => 1
  | kINT8 => 2
  | kINT32 => 3
  | kBOOL => 4
  | kUINT8 => 5
  | kFP8 => 6
  | kBF16 => 7
  | kINT64 => 8
  | kINT4 => 9

/-- `to_trt_dtype`. -/
def toTrtDtype (mgx : Int32) : DataType :=
  if mgx = 4 then .kFLOAT
  else if mgx = 3 then .kHALF
  else if mgx = 7 then .kINT8
  else if mgx = 10 then .kINT32
  else if mgx = 2 then .kBOOL
  else if mgx = 6 then .kUINT8
  else if mgx = 11 then .kINT64
  else if mgx = 16 then .kBF16
  else .kFLOAT

/-- `TensorIOMode`. -/
inductive TensorIOMode where
  | kNONE
  | kINPUT
  | kOUTPUT
  deriving DecidableEq

/-- The product of the dimensions, as clients compute it. -/
def dimsVolume (d : Dims) : Int64 := d.entries.foldl (fun v x => v * x) 1

namespace ShimEngine

variable (e : ShimEngine M) (name : Bytes)

/-- `getTensorDataType`. -/
def getTensorDataType : DataType :=
  match tensorOf e.ios name with
  | some t => toTrtDtype t.datatype
  | none => .kFLOAT

/-- `getTensorIOMode`. -/
def getTensorIOMode : TensorIOMode :=
  match tensorOf e.ios name with
  | some t => if t.dir = .kInput then .kINPUT else .kOUTPUT
  | none => .kNONE

/-- `getTensorBytesPerComponent`. -/
def getTensorBytesPerComponent : Int32 :=
  match tensorOf e.ios name with
  | some t => t.bytesPerElem.toUInt32.toInt32
  | none => 0

/-- The size of a buffer, as clients compute it. -/
def bufferSize : UInt64 :=
  (dimsVolume (e.getTensorShape name)).toUInt64 *
    (e.getTensorBytesPerComponent name).toInt64.toUInt64

end ShimEngine

section Sizes

variable {v : List Int64}

theorem entries_toDims (hrank : v.length ≤ maxDims) : (toDims v).entries = v := by
  ext i : 1
  rw [Dims.entries, rank_toDims hrank, List.getElem?_take]
  split
  next hi =>
    have hi' : i < maxDims := Nat.lt_of_lt_of_le hi hrank
    rw [Vector.getElem?_toList, Vector.getElem?_eq_getElem hi', toDims_getElem v hi',
      List.getElem?_eq_getElem hi, Option.getD_some]
  next hi => rw [List.getElem?_eq_none (Nat.le_of_not_lt hi)]

theorem toUInt64_foldl_mul (v : List Int64) (acc : Int64) (b : UInt64) :
    (v.foldl (fun v x => v * x) acc).toUInt64 * b =
      v.foldl (fun bytes d => bytes * d.toUInt64) (acc.toUInt64 * b) := by
  induction v generalizing acc with
  | nil => rfl
  | cons d v ih =>
    rw [List.foldl_cons, List.foldl_cons, ih, Int64.toUInt64_mul, UInt64.mul_assoc,
      UInt64.mul_comm d.toUInt64, UInt64.mul_assoc]

theorem toUInt64_toInt32 {b : UInt64} (h : b.toNat < 2 ^ 31) :
    b.toUInt32.toInt32.toInt64.toUInt64 = b := by
  apply UInt64.toNat_inj.mp
  change (BitVec.signExtend 64 (BitVec.setWidth 32 b.toBitVec)).toNat = b.toBitVec.toNat
  have hb : b.toBitVec.toNat < 2 ^ 31 := h
  have hmsb : (BitVec.setWidth 32 b.toBitVec).msb = false := by
    rw [BitVec.msb_eq_false_iff_two_mul_lt, BitVec.toNat_setWidth]
    omega
  rw [BitVec.signExtend_eq_setWidth_of_msb_false hmsb, BitVec.toNat_setWidth,
    BitVec.toNat_setWidth]
  omega

/-- The size is the one that the metadata gives, if the dimensions fit the array and the bytes of an
element an `int32_t`. -/
theorem bufferSize_eq {e : ShimEngine M} {name : Bytes} {io : IOTensor}
    (hio : tensorOf e.ios name = some io) (hrank : io.dims.length ≤ maxDims)
    (hbytes : io.bytesPerElem.toNat < 2 ^ 31) : e.bufferSize name = io.bufferBytes := by
  have hshape : e.getTensorShape name = toDims io.dims := by
    rw [ShimEngine.getTensorShape, e.dimsOf_eq, hio, Option.map_some]
  rw [ShimEngine.bufferSize, hshape, dimsVolume, entries_toDims hrank,
    ShimEngine.getTensorBytesPerComponent, hio]
  simp only
  rw [toUInt64_toInt32 hbytes, toUInt64_foldl_mul, IOTensor.bufferBytes]
  congr 1
  exact UInt64.one_mul _

end Sizes

/-- The parameters of a program have densely packed shapes that fit the interface. -/
structure Sized (M : Migraphx) (typeSize : Int32 → ℕ) (ps : ParameterSet) : Prop where
  dense : ∀ p s, (p, s) ∈ ps.params → s.Dense M typeSize
  fits : ∀ p s, (p, s) ∈ ps.params → s.FitsDims
  rank : ∀ p s, (p, s) ∈ ps.params → s.lengths.length ≤ maxDims

/-- The shapes that were set for inputs are those of the model. -/
def SetsModel (ps : ParameterSet) (concrete : ConcreteDims) : Prop :=
  ∀ name s dims, (.input name, s) ∈ ps.params → concrete[name]? = some dims →
    dims = (inputTensor (name, s)).dims

section Static

variable {typeSize : Int32 → ℕ} {ps : ParameterSet} {onnxNames : List Bytes} {e : ShimEngine M}
  {s : Shape} {devicePtrs : DevicePtrs} {concrete : ConcreteDims}

theorem setsModel_empty : SetsModel ps ∅ := fun _ _ _ _ h =>
  absurd (TreeMap.getElem?_emptyc.symm.trans h) (by simp)

/-- The metadata of a tensor gives its shape back. -/
theorem shape_ioFromShape (h : s.Dense M typeSize) (name : Bytes) (dir : IODir) :
    M.shape (ioFromShape name s dir).datatype
      ((ioFromShape name s dir).dims.map Int64.toUInt64) = s := by
  have hlengths : (ioFromShape name s dir).dims.map Int64.toUInt64 = s.lengths := by
    rw [ioFromShape, List.map_map]
    exact List.map_id _
  rw [hlengths]
  exact h.packed

theorem bytesPerElem_lt (hM : M.Packs typeSize) (h : s.Dense M typeSize) :
    (bytesPerElem s).toNat < 2 ^ 31 := by
  rw [h.bytesPerElem_eq hM]
  split
  · decide
  · have hlt := hM.lt s.type
    rw [UInt64.toNat_ofNat_of_lt' (Nat.lt_trans hlt (by decide))]
    exact hlt

theorem tensorOf_of_nodup {ios : List IOTensor} (h : (ios.map fun io => io.name).Nodup)
    {io : IOTensor} (hio : io ∈ ios) : tensorOf ios io.name = some io := by
  induction ios with
  | nil => exact absurd hio List.not_mem_nil
  | cons io' ios ih =>
    rw [List.map_cons, List.nodup_cons] at h
    rw [tensorOf, List.find?_cons]
    rcases List.mem_cons.mp hio with rfl | hio
    · rw [decide_eq_true rfl]
    · have hne : io'.name ≠ io.name := fun he => h.1 (he ▸ List.mem_map_of_mem hio)
      rw [decide_eq_false hne]
      exact ih h.2 hio

/-- A client computes the size of the shape that an IO tensor was made of. -/
theorem bufferSize_of_shape (hM : M.Packs typeSize) (hs : s.Dense M typeSize)
    (hrank : s.lengths.length ≤ maxDims) (hnodup : (e.ios.map fun io => io.name).Nodup)
    {name : Bytes} {dir : IODir} (hio : ioFromShape name s dir ∈ e.ios) :
    e.bufferSize name = s.bytes := by
  rw [← hs.bufferBytes_eq hM name dir]
  refine bufferSize_eq (tensorOf_of_nodup hnodup hio) ?_ (bytesPerElem_lt hM hs)
  rw [ioFromShape, List.length_map]
  exact hrank

/-- A static engine binds an input with the shape of its parameter. -/
theorem boundShape_static (hM : Sized M typeSize ps)
    (hios : buildIos none ps.entries onnxNames = some e.ios) (hset : SetsModel ps concrete)
    {name : Bytes} (hs : (.input name, s) ∈ ps.params) :
    e.engine.boundShape concrete name = s := by
  have hinput : e.engine.inputs[name]? = some (inputTensor (name, s)) :=
    (inputs_of_build hios).mpr ⟨s, hs, rfl⟩
  have hdims : EngineImpl.resolve (inputTensor (name, s)).dims (e.engine.dynamicBatch concrete) =
      (inputTensor (name, s)).dims :=
    EngineImpl.resolve_of_nonneg (hM.fits _ s hs).not_neg
  have hshape : M.shape (inputTensor (name, s)).datatype
      ((inputTensor (name, s)).dims.map Int64.toUInt64) = s :=
    shape_ioFromShape (hM.dense _ s hs) name .kInput
  rw [EngineImpl.boundShape, EngineImpl.inputDatatype, hinput]
  rcases hconcrete : concrete[name]? with _ | dims
  · simp only [hdims, hshape]
  · simp only [hset name s dims hs hconcrete, hshape]

/-- A static engine binds an output with the shape of its parameter. -/
theorem bindParam_output_static (hM : Sized M typeSize ps)
    (hios : buildIos none ps.entries onnxNames = some e.ios)
    (hlt : ∀ k s, (.output k, s) ∈ ps.params → k < (outputsOf ps.params).length) {k : ℕ}
    (hs : (.output k, s) ∈ ps.params) :
    e.engine.bindParam devicePtrs concrete (Param.output k).name =
      devicePtrs[realName onnxNames k]?.map fun ptr =>
        ((Param.output k).name, ⟨s, .device ptr⟩) := by
  have hdims : EngineImpl.resolve (outputTensor onnxNames (k, s)).dims
      (e.engine.dynamicBatch concrete) = (outputTensor onnxNames (k, s)).dims :=
    EngineImpl.resolve_of_nonneg (hM.fits _ s hs).not_neg
  have hshape : M.shape (outputTensor onnxNames (k, s)).datatype
      ((outputTensor onnxNames (k, s)).dims.map Int64.toUInt64) = s :=
    shape_ioFromShape (hM.dense _ s hs) _ _
  rw [EngineImpl.bindParam_output (ps.output_lt k s hs), output_getElem? hios hlt hs]
  simp only [Option.bind_eq_bind, Option.bind_some, hdims, hshape]
  change devicePtrs[realName onnxNames k]?.bind _ = _
  rcases devicePtrs[realName onnxNames k]? with _ | ptr
  · rfl
  · rfl

/-- A static engine reads every input with the shape of its parameter. -/
theorem callerInputs_static (hsized : Sized M typeSize ps)
    (hios : buildIos none ps.entries onnxNames = some e.ios)
    (hperm : ((M.getParameterShapes e.engine.prog).map Prod.fst).Perm (ps.entries.map Prod.fst))
    (hz : e.engine.zeroCopy = true) (m : Mem) : (e.engine.callerInputs devicePtrs ∅).read m =
      named ((inputsOf ps.params).filterMap fun p =>
        (devicePtrs[p.1]?).map fun ptr => (p.1, p.2, m.read ptr p.2.bytes.toNat)) := by
  let value (name : Bytes) : Option (Bytes × Shape × Bytes) :=
    (devicePtrs[name]?).map fun ptr =>
      (name, e.engine.boundShape ∅ name, m.read ptr (e.engine.boundShape ∅ name).bytes.toNat)
  have hfst : ∀ name q, value name = some q → q.1 = name := by
    intro name q hq
    obtain ⟨ptr, -, rfl⟩ := Option.map_eq_some_iff.mp hq
    rfl
  have hfilter := hperm.filter fun name => !isOutputParam name
  rw [inputNames_eq_filter] at hfilter
  have hleft : (e.engine.callerInputs devicePtrs ∅).map
      (fun i => (i.1, i.2.1, m.read i.2.2 i.2.1.bytes.toNat)) =
      (((M.getParameterShapes e.engine.prog).map Prod.fst).filter
        fun name => !isOutputParam name).filterMap value := by
    rw [EngineImpl.callerInputs, List.map_filterMap, List.filterMap_filter, List.filterMap_map]
    refine List.filterMap_congr fun p _ => ?_
    by_cases hout : isOutputParam p.1 = true
    · simp [hout]
    · simp only [hout, Function.comp_apply, EngineImpl.usedShape, hz, if_true, value]
      rcases devicePtrs[p.1]? with _ | ptr
      · rfl
      · rfl
  have hright : (inputNames ps).filterMap value = (inputsOf ps.params).filterMap fun p =>
      (devicePtrs[p.1]?).map fun ptr => (p.1, p.2, m.read ptr p.2.bytes.toNat) := by
    rw [inputNames, List.filterMap_map]
    refine List.filterMap_congr fun p hp => ?_
    rw [Function.comp_apply, ← boundShape_static hsized hios setsModel_empty (mem_inputsOf.mp hp)]
  rw [InputBuffers.read, hleft, ← hright]
  exact named_filterMap_perm ps.inputs_nodup hfilter hfst

theorem mem_ios_input (hios : buildIos none ps.entries onnxNames = some e.ios) {name : Bytes}
    (hs : (.input name, s) ∈ ps.params) : ioFromShape name s .kInput ∈ e.ios :=
  (mem_ios hios).mpr (.inl ⟨name, s, hs, rfl⟩)

theorem mem_ios_output (hios : buildIos none ps.entries onnxNames = some e.ios) {k : ℕ}
    (hs : (.output k, s) ∈ ps.params) : ioFromShape (realName onnxNames k) s .kOutput ∈ e.ios :=
  (mem_ios hios).mpr (.inr ⟨k, s, hs, rfl⟩)

end Static

/-- In a static engine with densely packed tensors of at most eight dimensions and with distinct
names, a zero-copy run binds every parameter with its own shape, to the buffer of an IO tensor, if
the shapes that were set for inputs are those of the model. The shape has the size that a client
computes for that tensor. -/
theorem bound_bufferSize (M : Migraphx) (typeSize : Int32 → ℕ) (ps : ParameterSet)
    (onnxNames : List Bytes) (e : ShimEngine M) (devicePtrs : DevicePtrs) (concrete : ConcreteDims)
    (stream : Ptr) (params : ProgramParameters) (hM : M.Packs typeSize)
    (hsized : Sized M typeSize ps) (hset : SetsModel ps concrete)
    (hios : buildIos none ps.entries onnxNames = some e.ios)
    (hnodup : (e.ios.map fun io => io.name).Nodup)
    (hperm : ((M.getParameterShapes e.engine.prog).map Prod.fst).Perm (ps.entries.map Prod.fst))
    (hrun : (e.engine.runZeroCopy devicePtrs concrete stream).started = some params) :
    (params.map Prod.fst).Perm (ps.entries.map Prod.fst) ∧
    ∀ q ∈ params, (q.1, q.2.shape) ∈ ps.entries ∧ ∃ io ∈ e.ios, ∃ ptr,
      devicePtrs[io.name]? = some ptr ∧ q.2.data = .device ptr ∧
        q.2.shape.bytes = e.bufferSize io.name := by
  have hmap := EngineImpl.started_eq_some.mp hrun
  have hfst : params.map Prod.fst =
      ((M.getParameterShapes e.engine.prog).map Prod.fst).map id :=
    Lists.map_eq_of_mapM_eq_some hmap fun _ _ h => EngineImpl.bindParam_fst h
  rw [List.map_id] at hfst
  refine ⟨hfst ▸ hperm, fun q hq => ?_⟩
  have hsome : some q ∈ params.map some := List.mem_map_of_mem hq
  rw [← Lists.mapM_eq_some_iff.mp hmap] at hsome
  obtain ⟨pname, hpname, hbind⟩ := List.mem_map.mp hsome
  obtain ⟨⟨pname, s⟩, hentry, rfl⟩ := List.mem_map.mp (hperm.mem_iff.mp hpname)
  obtain ⟨p, hp, rfl⟩ := ps.mem_entries.mp hentry
  have hdense := hsized.dense p s hp
  cases p with
  | input name =>
    have hio := mem_ios_input hios hp
    rw [Param.name, EngineImpl.bindParam_input_eq (ps.input_name name s hp).1,
      boundShape_static hsized hios hset hp, Option.map_eq_some_iff] at hbind
    obtain ⟨ptr, hptr, rfl⟩ := hbind
    exact ⟨hentry, _, hio, ptr, hptr, rfl,
      (bufferSize_of_shape hM hdense (hsized.rank _ s hp) hnodup hio).symm⟩
  | output k =>
    have hio := mem_ios_output hios hp
    have hlt k s (h : (.output k, s) ∈ ps.params) : k < (outputsOf ps.params).length := by
      obtain ⟨a, _, ha⟩ := Lists.exists_of_mapM_eq_some hmap (mem_names hperm h)
      exact lt_of_bindParam hios h ha
    rw [bindParam_output_static hsized hios hlt hp, Option.map_eq_some_iff] at hbind
    obtain ⟨ptr, hptr, rfl⟩ := hbind
    exact ⟨hentry, _, hio, ptr, hptr, rfl,
      (bufferSize_of_shape hM hdense (hsized.rank _ s hp) hnodup hio).symm⟩

theorem sized_withOutputs {ks : List ℕ} {hn : ks.Nodup} {hlt : ∀ k ∈ ks, k < 2 ^ 31}
    (hM : M.shape floatPair.type floatPair.lengths = floatPair) :
    Sized M (fun _ => 4) (.withOutputs ks hn hlt) := by
  have hshape : ∀ p s, (p, s) ∈ (ParameterSet.withOutputs ks hn hlt).params → s = floatPair := by
    intro p s h
    cases p with
    | input name => exact (ParameterSet.input_mem_withOutputs.mp h).2
    | output k => exact (ParameterSet.output_mem_withOutputs.mp h).2
  constructor
  · intro p s h
    rw [hshape p s h]
    exact ⟨hM, by decide⟩
  · intro p s h
    rw [hshape p s h]
    decide
  · intro p s h
    rw [hshape p s h]
    decide

theorem bound_bufferSize_pair :
    let ps := ParameterSet.withOutputs [1, 0] (by decide) (by decide)
    let e : ShimEngine (.single ps.entries []) :=
      ⟨⟨(), [inputTensor (text "x", floatPair), outputTensor [] (0, floatPair),
        outputTensor [] (1, floatPair)]⟩, ⟨[], by decide⟩⟩
    let devicePtrs := OrderedMap.fill ∅ [(text "x", 16), (text "output_0", 32),
      (text "output_1", 48)]
    let concrete := OrderedMap.fill ∅ [(text "x", [2])]
    ∃ params, (e.engine.runZeroCopy devicePtrs concrete 0).started = some params ∧
      params.length = 3 ∧ ∀ q ∈ params, q.2.shape.bytes = 8 ∧
        ∃ io ∈ e.ios, e.bufferSize io.name = 8 := by
  intro ps e devicePtrs concrete
  obtain ⟨params, hrun⟩ :
      ∃ params, (e.engine.runZeroCopy devicePtrs concrete 0).started = some params :=
    Option.isSome_iff_exists.mp (by decide +kernel)
  have hset : SetsModel ps concrete := by
    intro name s dims hs hdims
    obtain ⟨rfl, rfl⟩ := ParameterSet.input_mem_withOutputs.mp hs
    have hx : concrete[text "x"]? = some [2] := by decide +kernel
    rw [← Option.some.inj (hx.symm.trans hdims)]
    decide
  obtain ⟨hperm, hbound⟩ := bound_bufferSize _ (fun _ => 4) ps [] e devicePtrs concrete 0 params
    (packs_of_prod fun _ _ => rfl) (sized_withOutputs rfl) hset (by decide +kernel)
    (by decide +kernel) (.refl _) hrun
  have hentry : ∀ p ∈ ps.entries, p.2.bytes = 8 := by decide
  have hlength : params.length = ps.entries.length := by simpa using hperm.length_eq
  refine ⟨params, hrun, hlength, fun q hq => ?_⟩
  obtain ⟨hmem, io, hio, ptr, -, -, hsize⟩ := hbound q hq
  have hbytes := hentry _ hmem
  exact ⟨hbytes, io, hio, hsize ▸ hbytes⟩

end TrtShim.Shim
