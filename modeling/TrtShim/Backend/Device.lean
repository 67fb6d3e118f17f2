import TrtShim.Backend.Buffers
import TrtShim.Bytes.Stores

/-! # Inference on device memory

A model maps its inputs to the bytes of its outputs. To infer it is to read every
input from its buffer and to write every output to its buffer. Both run paths do
just that: the zero-copy path has MIGraphX read and write the caller's buffers, and
the staged path copies to the host and back.
-/

namespace TrtShim.Backend

open Std

/-- The bytes of the outputs of a model, by their indices, from the shapes and the bytes of its
inputs, by their names. -/
abbrev Model := (Bytes → Option (Shape × Bytes)) → List Bytes

/-- The values of a list under their names. -/
def named (values : List (Bytes × Shape × Bytes)) (name : Bytes) : Option (Shape × Bytes) :=
  (values.find? fun v => v.1 = name).map fun v => v.2

/-- The inputs of an inference with their names, their shapes, and the buffers that hold them. -/
abbrev InputBuffers := List (Bytes × Shape × Ptr)

/-- The inputs in a memory. -/
def InputBuffers.read (ins : InputBuffers) (m : Mem) : Bytes → Option (Shape × Bytes) :=
  named (ins.map fun i => (i.1, i.2.1, m.read i.2.2 i.2.1.bytes.toNat))

/-- The memory after an inference with these buffers. -/
def infer (model : Model) (ins : InputBuffers) (outs : List Ptr) (m : Mem) : Mem :=
  m.writeAll (outs.zip (model (ins.read m)))

/-- What is written fits the memory, and the buffers written to are apart from each other and from
those of the inputs. -/
structure Separate (ins : InputBuffers) (ws : List (Ptr × Bytes)) : Prop where
  fits : ∀ w ∈ ws, w.2.length ≤ 2 ^ 64
  outputs : ws.Pairwise fun w w' => Mem.Apart (Mem.region w) (Mem.region w')
  inputs : ∀ w ∈ ws, ∀ i ∈ ins, Mem.Apart (Mem.region w) (i.2.2, i.2.1.bytes.toNat)

/-- The outputs of an inference, by their indices, with the buffers for them. -/
abbrev OutputBuffers := List (ℕ × Ptr)

/-- What is written for the outputs: to each buffer the result with its index. -/
def OutputBuffers.writes (outs : OutputBuffers) (results : List Bytes) : List (Ptr × Bytes) :=
  outs.filterMap fun o => (results[o.1]?).map fun bytes => (o.2, bytes)

/-- The outputs that a model computes of what the inputs held in one memory are in the other one,
each in the buffer for its index, and no other byte differs. -/
structure Inferred (model : Model) (ins : InputBuffers) (outs : OutputBuffers) (m m' : Mem) :
    Prop where
  written : ∀ k ptr bytes, (k, ptr) ∈ outs → (model (ins.read m))[k]? = some bytes →
    m'.read ptr bytes.length = bytes
  unchanged : ∀ a, (∀ k ptr bytes, (k, ptr) ∈ outs → (model (ins.read m))[k]? = some bytes →
    ¬ Mem.Within a ptr bytes.length) → m' a = m a

namespace OutputBuffers

variable {outs : OutputBuffers} {results : List Bytes} {ptr : Ptr} {bytes : Bytes}

theorem mem_writes :
    (ptr, bytes) ∈ outs.writes results ↔ ∃ k, (k, ptr) ∈ outs ∧ results[k]? = some bytes := by
  rw [writes, List.mem_filterMap]
  constructor
  · rintro ⟨⟨k, ptr'⟩, hmem, hwrite⟩
    obtain ⟨bytes', hbytes, he⟩ := Option.map_eq_some_iff.mp hwrite
    obtain ⟨rfl, rfl⟩ := Prod.mk.inj he
    exact ⟨k, hmem, hbytes⟩
  · rintro ⟨k, hmem, hbytes⟩
    exact ⟨(k, ptr), hmem, Option.map_eq_some_iff.mpr ⟨bytes, hbytes, rfl⟩⟩

/-- Outputs without a gap in their indices get the results in their order. -/
theorem writes_range (ptrs : List Ptr) (results : List Bytes) :
    writes ((List.range ptrs.length).zip ptrs) results = ptrs.zip results := by
  rw [← Lists.filterMap_range_zip, ← Lists.filterMap_range_zip, writes, List.filterMap_filterMap,
    List.length_range]
  refine List.filterMap_congr fun k hk => ?_
  rw [List.getElem?_range (List.mem_range.mp hk), Option.bind_some]
  rcases ptrs[k]? with _ | ptr
  · rfl
  · rfl

end OutputBuffers

theorem inferred_writeAll {model : Model} {ins : InputBuffers} {outs : OutputBuffers} {m : Mem}
    (h : Separate ins (outs.writes (model (ins.read m)))) :
    Inferred model ins outs m (m.writeAll (outs.writes (model (ins.read m)))) where
  written k ptr bytes hptr hbytes := by
    have hmem := OutputBuffers.mem_writes.mpr ⟨k, hptr, hbytes⟩
    exact Mem.read_writeAll h.outputs hmem (h.fits _ hmem)
  unchanged a ha := by
    refine Mem.writeAll_of_not_within fun w hw => ?_
    obtain ⟨k, hptr, hbytes⟩ := OutputBuffers.mem_writes.mp hw
    exact ha k w.1 w.2 hptr hbytes

/-! ## What MIGraphX does -/

/-- The parameters that are no outputs, on the device. -/
def inputBuffers (params : ProgramParameters) : InputBuffers :=
  params.filterMap fun p =>
    match p.2.data with
    | .device ptr => if isOutputParam p.1 then none else some (p.1, p.2.shape, ptr)
    | .host _ => none

/-- The parameters that are no outputs, on the host. -/
def hostInputs (params : ProgramParameters) : Bytes → Option (Shape × Bytes) :=
  named (params.filterMap fun p =>
    match p.2.data with
    | .device _ => none
    | .host bytes => some (p.1, p.2.shape, bytes))

/-- The outputs, each with the device buffer of the parameter that has its index. -/
def outputWrites (params : ProgramParameters) (outs : List Bytes) : List (Ptr × Bytes) :=
  params.filterMap fun p =>
    match p.2.data with
    | .device ptr => do
      let idx ← if isOutputParam p.1 then outputIndex p.1 else none
      let bytes ← if idx < 0 then none else outs[idx.toNat]?
      return (ptr, bytes)
    | .host _ => none

/-- What the evaluations of MIGraphX do to device memory, when their stream has run. -/
structure Device (M : Migraphx) where
  eval : M.Program → ProgramParameters → Mem → Mem

/-- A program without offload copies computes a model on device buffers that are separate. -/
def Device.Binds {M : Migraphx} (D : Device M) (prog : M.Program) (model : Model) : Prop :=
  ∀ params m, (∀ p ∈ params, ∃ ptr, p.2.data = .device ptr) →
    Separate (inputBuffers params) (outputWrites params (model ((inputBuffers params).read m))) →
    D.eval prog params m =
      m.writeAll (outputWrites params (model ((inputBuffers params).read m)))

/-- A program with offload copies computes a model on the host. -/
structure Device.Stages {M : Migraphx} (D : Device M) (prog : M.Program) (model : Model) :
    Prop where
  memory : ∀ params m, (∀ p ∈ params, ∃ bytes, p.2.data = .host bytes) →
    D.eval prog params m = m
  results : ∀ params results, (∀ p ∈ params, ∃ bytes, p.2.data = .host bytes) →
    M.eval prog params = .ok results →
    results.map (fun arg => arg.data) = (model (hostInputs params)).map .host

/-- The bytes that the copies of a staged run write. -/
def copyWrites (copies : List Copy) : List (Ptr × Bytes) :=
  copies.filterMap fun c =>
    match c.arg.data with
    | .device _ => none
    | .host bytes => some (c.dst, bytes)

/-- What a run does to device memory: the evaluation, and then the copies. -/
def Device.effect {M : Migraphx} (D : Device M) (prog : M.Program) (run : Run) (m : Mem) : Mem :=
  let m := match run.started with
    | some params => D.eval prog params m
    | none => m
  m.writeAll (copyWrites run.copies)

/-- What is copied to the host is what the memory holds. -/
def Hip.Reads (hip : Hip) (m : Mem) : Prop :=
  ∀ p size bytes, hip.toHost p size = some bytes → bytes = m.read p size.toNat

namespace EngineImpl

variable {M : Migraphx} (e : EngineImpl M) {hip : Hip} (devicePtrs : DevicePtrs)
  (concrete : ConcreteDims)

/-- The shape with which the zero-copy path binds an input. -/
def boundShape (name : Bytes) : Shape :=
  let dims := match concrete[name]?, e.inputs[name]? with
    | some dims, _ => dims
    | none, some io => resolve io.dims (e.dynamicBatch concrete)
    | none, none => []
  M.shape (e.inputDatatype name) (dims.map Int64.toUInt64)

/-- The shape with which a run reads an input. -/
def usedShape (p : Bytes × Shape) : Shape :=
  if e.zeroCopy then e.boundShape concrete p.1 else e.stageShape concrete p

/-- The caller's buffers for the inputs of the program. -/
def callerInputs : InputBuffers :=
  (M.getParameterShapes e.prog).filterMap fun p =>
    if isOutputParam p.1 then none
    else (devicePtrs[p.1]?).map fun ptr => (p.1, e.usedShape concrete p, ptr)

/-- The caller's buffers for the outputs of the engine, if none is missing. -/
def callerOutputs : Option (List Ptr) := e.outputs.mapM fun io => devicePtrs[io.name]?

variable {e devicePtrs concrete} {params : ProgramParameters}

theorem bindParam_input_eq {name : Bytes} (hn : isOutputParam name = false) :
    e.bindParam devicePtrs concrete name =
      (devicePtrs[name]?).map fun ptr => (name, ⟨e.boundShape concrete name, .device ptr⟩) := by
  simp only [bindParam, lookupParam, hn, Bool.false_eq_true, if_false, Option.bind_eq_bind]
  exact Option.map_eq_bind.symm

theorem bindParam_device {pname : Bytes} {p : Bytes × Argument}
    (h : e.bindParam devicePtrs concrete pname = some p) : ∃ ptr, p.2.data = .device ptr := by
  simp only [bindParam, Option.bind_eq_bind, Option.bind_eq_some_iff] at h
  obtain ⟨_, _, ptr, _, he⟩ := h
  rw [← Option.some.inj he]
  exact ⟨ptr, rfl⟩

theorem stageParam_eq_some {p : Bytes × Shape} {q : Bytes × Argument}
    (h : e.stageParam hip devicePtrs concrete p = some q) :
    ∃ src staging, devicePtrs[p.1]? = some src ∧
      hip.toHost src (e.stageShape concrete p).bytes = some staging ∧
      q = (p.1, ⟨e.stageShape concrete p, .host staging⟩) := by
  obtain ⟨src, hsrc, hrest⟩ := Option.bind_eq_some_iff.mp h
  obtain ⟨staging, hstaging, hq⟩ := Option.bind_eq_some_iff.mp hrest
  exact ⟨src, staging, hsrc, hstaging, (Option.some.inj hq).symm⟩

variable {ps : ParameterSet} {outs : List Bytes}

section ZeroCopy

/-- The zero-copy path binds the caller's buffers. -/
theorem inputBuffers_bound (hz : e.zeroCopy = true)
    (hparams : ((M.getParameterShapes e.prog).map Prod.fst).mapM
      (e.bindParam devicePtrs concrete) = some params) :
    inputBuffers params = e.callerInputs devicePtrs concrete := by
  rw [inputBuffers, Lists.filterMap_of_mapM hparams, callerInputs, List.filterMap_map]
  refine List.filterMap_congr fun p _ => ?_
  by_cases hout : isOutputParam p.1 = true
  · rw [if_pos hout, Function.comp_apply]
    rcases hbind : e.bindParam devicePtrs concrete p.1 with _ | q
    · rfl
    · obtain ⟨ptr, hptr⟩ := bindParam_device hbind
      rw [Option.bind_some, hptr, bindParam_fst hbind]
      exact if_pos hout
  · rw [if_neg hout, Function.comp_apply, bindParam_input_eq (Bool.eq_false_iff.mpr hout)]
    rcases devicePtrs[p.1]? with _ | ptr
    · rfl
    · rw [Option.map_some, Option.map_some, Option.bind_some, usedShape, if_pos hz]
      exact if_neg hout

/-- The caller's buffer for the output at an index. -/
def boundOutput (e : EngineImpl M) (devicePtrs : DevicePtrs) (k : ℕ) : Option Ptr :=
  (e.outputs[k]?).bind fun io => devicePtrs[io.name]?

theorem bindParam_output_eq (e : EngineImpl M) (devicePtrs : DevicePtrs)
    (concrete : ConcreteDims) {k : ℕ} (hk : k < 2 ^ 31) :
    ∃ shape, e.bindParam devicePtrs concrete (Param.output k).name =
      (e.boundOutput devicePtrs k).map fun ptr =>
        ((Param.output k).name, ⟨shape, .device ptr⟩) := by
  rw [bindParam_output hk, boundOutput]
  rcases e.outputs[k]? with _ | out
  · exact ⟨⟨0, [], 0, 0⟩, rfl⟩
  · exact ⟨_, Option.map_eq_bind.symm⟩

/-- What is written for the parameter with the index of an output. -/
def outputWrite (e : EngineImpl M) (devicePtrs : DevicePtrs) (outs : List Bytes) (k : ℕ) :
    Option (Ptr × Bytes) :=
  (e.boundOutput devicePtrs k).bind fun ptr => (outs[k]?).map fun bytes => (ptr, bytes)

/-- Every output is written once, to the caller's buffer for it. -/
theorem outputWrites_bound
    (hparams : ((M.getParameterShapes e.prog).map Prod.fst).mapM
      (e.bindParam devicePtrs concrete) = some params)
    (hperm : ((M.getParameterShapes e.prog).map Prod.fst).Perm (ps.entries.map Prod.fst)) :
    (outputWrites params outs).Perm
      ((ps.outputs.map Prod.fst).filterMap (e.outputWrite devicePtrs outs)) := by
  have hsorted : (ps.outputs.map Prod.fst).Perm ((outputsOf ps.params).map Prod.fst) :=
    (List.perm_insertionSort _ _).map _
  rw [outputWrites, Lists.filterMap_of_mapM hparams]
  refine (hperm.filterMap _).trans (.trans ?_ (hsorted.filterMap _).symm)
  rw [ParameterSet.entries, List.map_map, List.filterMap_map, outputsOf, List.map_filterMap,
    List.filterMap_filterMap]
  refine List.Perm.of_eq (List.filterMap_congr ?_)
  rintro ⟨name | k, s⟩ hp
  · have hin : isOutputParam name = false := (ps.input_name name s hp).1
    change (e.bindParam devicePtrs concrete name).bind _ = none
    rw [bindParam_input_eq hin]
    rcases devicePtrs[name]? with _ | ptr
    · rfl
    · simp [hin]
  · obtain ⟨shape, hbind⟩ := bindParam_output_eq e devicePtrs concrete (ps.output_lt k s hp)
    have hnn : ¬ (k : ℤ) < 0 := by omega
    change (e.bindParam devicePtrs concrete (Param.output k).name).bind _ =
      e.outputWrite devicePtrs outs k
    rw [hbind, outputWrite]
    rcases e.boundOutput devicePtrs k with _ | ptr
    · rfl
    · simp only [Option.map_some, Option.bind_some, isOutputParam_output, if_true,
        outputIndex_output (ps.output_lt k s hp), hnn, if_false, Option.bind_eq_bind,
        Int.toNat_natCast]
      exact Option.map_eq_bind.symm

/-- A run that has bound every parameter has found a buffer for every output. -/
theorem callerOutputs_bound
    (hparams : ((M.getParameterShapes e.prog).map Prod.fst).mapM
      (e.bindParam devicePtrs concrete) = some params)
    (hperm : ((M.getParameterShapes e.prog).map Prod.fst).Perm (ps.entries.map Prod.fst))
    (hcount : e.outputs.length = (outputsOf ps.params).length) :
    ps.outputs.map Prod.fst = List.range e.outputs.length ∧
      ∃ ptrs, e.callerOutputs devicePtrs = some ptrs := by
  have hbound (k : ℕ) (s : Shape) (hk : (.output k, s) ∈ ps.params) :
      (e.boundOutput devicePtrs k).isSome := by
    obtain ⟨q, -, hq⟩ := Lists.exists_of_mapM_eq_some hparams (mem_names hperm hk)
    obtain ⟨shape, hbind⟩ := bindParam_output_eq e devicePtrs concrete (ps.output_lt k s hk)
    rw [hbind, Option.map_eq_some_iff] at hq
    obtain ⟨ptr, hptr, -⟩ := hq
    rw [hptr, Option.isSome_some]
  have hlength : (ps.outputs.map Prod.fst).length = e.outputs.length := by
    rw [List.length_map, ps.length_outputs, hcount]
  have hrange : ps.outputs.map Prod.fst = List.range e.outputs.length := by
    have hlt : ∀ k ∈ ps.outputs.map Prod.fst, k < (ps.outputs.map Prod.fst).length := by
      rw [hlength, List.forall_mem_map]
      intro p hp
      obtain ⟨ptr, hptr⟩ := Option.isSome_iff_exists.mp (hbound p.1 p.2 (ps.mem_outputs.mp hp))
      obtain ⟨io, hio, -⟩ := Option.bind_eq_some_iff.mp hptr
      exact (List.getElem?_eq_some_iff.mp hio).1
    rw [← hlength]
    exact Lists.eq_range_of_pairwise_lt (List.pairwise_map.mpr ps.outputs_pairwise) hlt
  refine ⟨hrange, Option.isSome_iff_exists.mp (Lists.isSome_mapM_iff.mpr fun io hio => ?_)⟩
  obtain ⟨k, hk⟩ := List.getElem?_of_mem hio
  have hmem : k ∈ ps.outputs.map Prod.fst := by
    rw [hrange, List.mem_range]
    exact (List.getElem?_eq_some_iff.mp hk).1
  obtain ⟨p, hp, rfl⟩ := List.mem_map.mp hmem
  have hsome := hbound p.1 p.2 (ps.mem_outputs.mp hp)
  rwa [boundOutput, hk, Option.bind_some] at hsome

theorem boundOutput_eq {ptrs : List Ptr} (h : e.callerOutputs devicePtrs = some ptrs) (k : ℕ) :
    e.boundOutput devicePtrs k = ptrs[k]? := by
  have hget := congrArg (fun l => l[k]?) (Lists.mapM_eq_some_iff.mp h)
  simp only [List.getElem?_map] at hget
  have hjoin := congrArg (fun ptr => ptr.bind id) hget
  simpa only [Option.bind_map, Function.comp_def, id, Option.bind_fun_some, boundOutput] using hjoin

/-- The zero-copy path makes the inference. -/
theorem runZeroCopy_infers {D : Device M} {model : Model} {stream : Ptr} {m : Mem}
    (hz : e.zeroCopy = true) (hbinds : D.Binds e.prog model)
    (hperm : ((M.getParameterShapes e.prog).map Prod.fst).Perm (ps.entries.map Prod.fst))
    (hcount : e.outputs.length = (outputsOf ps.params).length)
    (hret : (e.runZeroCopy devicePtrs concrete stream).returned = true) :
    ∃ ptrs, e.callerOutputs devicePtrs = some ptrs ∧
      let ins := e.callerInputs devicePtrs concrete
      (Separate ins (ptrs.zip (model (ins.read m))) →
        D.effect e.prog (e.runZeroCopy devicePtrs concrete stream) m = infer model ins ptrs m) := by
  rcases hparams : ((M.getParameterShapes e.prog).map Prod.fst).mapM
      (e.bindParam devicePtrs concrete) with _ | params
  · simp [runZeroCopy, hparams] at hret
  · obtain ⟨hrange, ptrs, hptrs⟩ := callerOutputs_bound hparams hperm hcount
    refine ⟨ptrs, hptrs, ?_⟩
    intro ins hsep
    have hins : inputBuffers params = ins := inputBuffers_bound hz hparams
    have hwrites : (outputWrites params (model (ins.read m))).Perm
        (ptrs.zip (model (ins.read m))) := by
      have hlength : ptrs.length = e.outputs.length := by
        simpa using (congrArg List.length (Lists.mapM_eq_some_iff.mp hptrs)).symm
      refine (outputWrites_bound hparams hperm).trans (.of_eq ?_)
      rw [hrange, ← hlength, ← Lists.filterMap_range_zip]
      exact List.filterMap_congr fun k _ => by rw [outputWrite, boundOutput_eq hptrs]
    have hsep' : Separate ins (outputWrites params (model (ins.read m))) :=
      ⟨fun w hw => hsep.fits w (hwrites.mem_iff.mp hw),
        (hwrites.pairwise_iff fun h => h.symm).mpr hsep.outputs,
        fun w hw => hsep.inputs w (hwrites.mem_iff.mp hw)⟩
    have hdevice : ∀ p ∈ params, ∃ ptr, p.2.data = .device ptr := by
      intro p hp
      have hsome : some p ∈ params.map some := List.mem_map_of_mem hp
      rw [← Lists.mapM_eq_some_iff.mp hparams] at hsome
      obtain ⟨name, -, hname⟩ := List.mem_map.mp hsome
      exact bindParam_device hname
    have heval := hbinds params m hdevice
    rw [hins] at heval
    simp only [runZeroCopy, hparams]
    exact (heval hsep').trans (Mem.writeAll_perm hsep'.outputs hwrites)

/-- A zero-copy run that succeeds has found its outputs without a gap in their indices. -/
theorem outputs_range_of_zeroCopy {stream : Ptr}
    (hperm : ((M.getParameterShapes e.prog).map Prod.fst).Perm (ps.entries.map Prod.fst))
    (hcount : e.outputs.length = (outputsOf ps.params).length)
    (hret : (e.runZeroCopy devicePtrs concrete stream).returned = true) :
    ps.outputs.map Prod.fst = List.range e.outputs.length := by
  rcases hparams : ((M.getParameterShapes e.prog).map Prod.fst).mapM
      (e.bindParam devicePtrs concrete) with _ | params
  · simp [runZeroCopy, hparams] at hret
  · exact (callerOutputs_bound hparams hperm hcount).1

end ZeroCopy

section Staged

variable {m : Mem}

/-- The staged path evaluates the program on what the caller's buffers hold. -/
theorem hostInputs_staged (hz : e.zeroCopy = false) (hhip : hip.Reads m)
    (hparams : (M.getParameterShapes e.prog).mapM (e.stageParam hip devicePtrs concrete) =
      some params) :
    hostInputs params = (e.callerInputs devicePtrs concrete).read m := by
  rw [hostInputs, InputBuffers.read, Lists.filterMap_of_mapM hparams, callerInputs,
    List.map_filterMap]
  refine congrArg named (List.filterMap_congr fun p hp => ?_)
  have hin : ¬ isOutputParam p.1 = true := fun hout => by
    rw [zeroCopy, List.any_eq_false] at hz
    exact hz p hp hout
  obtain ⟨q, -, hq⟩ := Lists.exists_of_mapM_eq_some hparams hp
  obtain ⟨src, staging, hsrc, hstaging, rfl⟩ := stageParam_eq_some hq
  rw [hq, if_neg hin, hsrc, Option.map_some, Option.map_some, Option.bind_some, usedShape, hz,
    hhip _ _ _ hstaging]
  rfl

theorem copies_deliver {results : List Argument} {oi : ℕ} {outs : List IOTensor}
    {copies : List Copy} (h : deliver hip devicePtrs results oi outs = (true, copies)) :
    ∃ ptrs, outs.mapM (fun io => devicePtrs[io.name]?) = some ptrs ∧
      copies.map (fun c => (c.dst, c.arg)) = ptrs.zip (results.drop oi) := by
  induction outs generalizing oi copies with
  | nil =>
    obtain rfl : copies = [] := (Prod.mk.inj h).2.symm
    exact ⟨[], rfl, rfl⟩
  | cons out outs ih =>
    obtain ⟨arg, dst, copies', harg, hdst, hrest, rfl⟩ := deliver_cons h
    obtain ⟨ptrs, hptrs, hcopies⟩ := ih hrest
    obtain ⟨hlt, rfl⟩ := List.getElem?_eq_some_iff.mp harg
    refine ⟨dst :: ptrs, ?_, ?_⟩
    · rw [List.mapM_cons, hdst, hptrs]
      rfl
    · rw [List.map_cons, hcopies, List.drop_eq_getElem_cons hlt, List.zip_cons_cons]

/-- The results copied are the outputs of the model. -/
theorem copyWrites_eq {copies : List Copy} {ptrs : List Ptr} {results : List Argument}
    (hcopies : copies.map (fun c => (c.dst, c.arg)) = ptrs.zip results)
    (hresults : results.map (fun arg => arg.data) = outs.map .host) :
    copyWrites copies = ptrs.zip outs := by
  induction copies generalizing ptrs results outs with
  | nil =>
    rcases ptrs with _ | ⟨ptr, ptrs⟩
    · rfl
    · rcases results with _ | ⟨arg, results⟩
      · obtain rfl : outs = [] := List.map_eq_nil_iff.mp hresults.symm
        rfl
      · exact absurd hcopies (by simp)
  | cons c copies ih =>
    rcases ptrs with _ | ⟨ptr, ptrs⟩
    · exact absurd hcopies (by simp)
    · rcases results with _ | ⟨arg, results⟩
      · exact absurd hcopies (by simp)
      · rcases outs with _ | ⟨bytes, outs⟩
        · exact absurd hresults (by simp)
        · rw [List.map_cons, List.map_cons, List.cons.injEq] at hresults
          rw [List.map_cons, List.zip_cons_cons, List.cons.injEq, Prod.mk.injEq] at hcopies
          obtain ⟨⟨rfl, rfl⟩, hrest⟩ := hcopies
          rw [copyWrites, List.filterMap_cons, hresults.1]
          exact congrArg (List.cons _) (ih hrest hresults.2)

/-- The staged path makes the inference. -/
theorem runStaged_infers {D : Device M} {model : Model} (hz : e.zeroCopy = false)
    (hstages : D.Stages e.prog model) (hhip : hip.Reads m)
    (hret : (e.runStaged hip devicePtrs concrete).returned = true) :
    ∃ ptrs, e.callerOutputs devicePtrs = some ptrs ∧
      D.effect e.prog (e.runStaged hip devicePtrs concrete) m =
        infer model (e.callerInputs devicePtrs concrete) ptrs m := by
  rcases hparams : (M.getParameterShapes e.prog).mapM (e.stageParam hip devicePtrs concrete)
    with _ | params
  · simp [runStaged, hparams] at hret
  · have hhost : ∀ p ∈ params, ∃ bytes, p.2.data = .host bytes := by
      intro p hp
      have hsome : some p ∈ params.map some := List.mem_map_of_mem hp
      rw [← Lists.mapM_eq_some_iff.mp hparams] at hsome
      obtain ⟨q, -, hq⟩ := List.mem_map.mp hsome
      obtain ⟨src, staging, -, -, rfl⟩ := stageParam_eq_some hq
      exact ⟨staging, rfl⟩
    rcases heval : M.eval e.prog params with what | results
    · simp [runStaged, hparams, heval] at hret
    · have hstart : (e.runStaged hip devicePtrs concrete).started = some params := by
        simp [runStaged, hparams, heval]
      have hdeliver := runStaged_copies hstart heval hret
      obtain ⟨ptrs, hptrs, hcopies⟩ := copies_deliver hdeliver
      have hresults := hstages.results params results hhost heval
      refine ⟨ptrs, hptrs, ?_⟩
      rw [Device.effect, hstart]
      simp only
      rw [hstages.memory params m hhost, copyWrites_eq hcopies hresults,
        hostInputs_staged hz hhip hparams]
      rfl

end Staged

/-- There is an output of the engine for every output parameter. -/
theorem length_outputs {onnxNames : List Bytes} {dyn : Option DynamicAxis}
    (hios : buildIos dyn ps.entries onnxNames = some e.ios) :
    e.outputs.length = (outputsOf ps.params).length := by
  cases dyn with
  | none => rw [outputs_static hios, List.length_map, ps.length_outputs]
  | some dyn => rw [outputs_dynamic hios, List.length_map, ps.length_outputs]

/-- The outputs of the engine have the names of the output parameters, in the order of their
indices. -/
theorem name_outputs {onnxNames : List Bytes} {dyn : Option DynamicAxis}
    (hios : buildIos dyn ps.entries onnxNames = some e.ios) :
    e.outputs.map (fun io => io.name) =
      ps.outputs.map fun p => realName onnxNames p.1 := by
  cases dyn with
  | none =>
    rw [outputs_static hios, List.map_map]
    rfl
  | some dyn =>
    rw [outputs_dynamic hios, List.map_map]
    exact List.map_congr_left fun p _ => markDynamic_name dyn (outputTensor onnxNames p)

end EngineImpl

/-- The program of an engine computes a model, on the device if the engine is zero-copy and on the
host if not. A program for the device lists the parameters that the engine was built from. -/
def Device.Computes {M : Migraphx} (D : Device M) (ps : ParameterSet) (e : EngineImpl M)
    (model : Model) : Prop :=
  if e.zeroCopy then D.Binds e.prog model ∧
    ((M.getParameterShapes e.prog).map Prod.fst).Perm (ps.entries.map Prod.fst)
  else D.Stages e.prog model

/-- A run that succeeds makes the inference, on either path. -/
theorem run_eq_infer {M : Migraphx} {D : Device M} {model : Model} {hip : Hip} {m : Mem}
    {ps : ParameterSet} {onnxNames : List Bytes} {dyn : Option DynamicAxis} {e : EngineImpl M}
    {devicePtrs : DevicePtrs} {concrete : ConcreteDims} {stream : Ptr}
    (hios : buildIos dyn ps.entries onnxNames = some e.ios) (hprog : D.Computes ps e model)
    (hhip : hip.Reads m) (hret : (e.run hip devicePtrs concrete stream).returned = true) :
    ∃ ptrs, e.callerOutputs devicePtrs = some ptrs ∧
      let ins := e.callerInputs devicePtrs concrete
      (Separate ins (ptrs.zip (model (ins.read m))) →
        D.effect e.prog (e.run hip devicePtrs concrete stream) m = infer model ins ptrs m) := by
  unfold Device.Computes at hprog
  unfold EngineImpl.run at hret ⊢
  by_cases hz : e.zeroCopy = true
  · rw [if_pos hz] at hprog hret ⊢
    exact EngineImpl.runZeroCopy_infers hz hprog.1 hprog.2 (EngineImpl.length_outputs hios) hret
  · rw [if_neg hz] at hprog hret ⊢
    obtain ⟨ptrs, hptrs, heffect⟩ :=
      EngineImpl.runStaged_infers (Bool.eq_false_iff.mpr hz) hprog hhip hret
    exact ⟨ptrs, hptrs, fun _ => heffect⟩

/-- A MIGraphX interface with a program for the device and one for the host, both for a model. -/
def Migraphx.ofModel (onDevice onHost : List (Bytes × Shape)) (model : Model) : Migraphx where
  Program := Bool
  getParameterShapes prog := if prog then onDevice else onHost
  shape type lengths := ⟨type, lengths, lengths.prod, 4 * lengths.prod⟩
  save _ := .ok [77]
  load _ := .ok true
  eval _ params := .ok ((model (hostInputs params)).map fun bytes =>
    ⟨⟨6, [UInt64.ofNat bytes.length], UInt64.ofNat bytes.length, UInt64.ofNat bytes.length⟩,
      .host bytes⟩)
  runAsync _ _ _ := .ok ()

/-- Evaluations that compute a model on the device. -/
def Device.ofModel {M : Migraphx} (model : Model) : Device M where
  eval _ params m := m.writeAll (outputWrites params (model ((inputBuffers params).read m)))

section OfModel

variable {onDevice onHost : List (Bytes × Shape)} {model : Model}

theorem binds_ofModel {prog : Bool} :
    (Device.ofModel model : Device (.ofModel onDevice onHost model)).Binds prog model :=
  fun _ _ _ _ => rfl

theorem stages_ofModel {prog : Bool} :
    (Device.ofModel model : Device (.ofModel onDevice onHost model)).Stages prog model where
  memory params m h := by
    have hnone : outputWrites params (model ((inputBuffers params).read m)) = [] := by
      refine List.filterMap_eq_nil_iff.mpr fun p hp => ?_
      obtain ⟨bytes, hbytes⟩ := h p hp
      rw [hbytes]
    change m.writeAll _ = m
    rw [hnone]
    rfl
  results params results _ h := by
    rw [← Except.ok.inj h, List.map_map]
    rfl

end OfModel

/-- The model that reverses the bytes of the input `x`. -/
def reverseModel : Model := fun ins => ((ins (text "x")).map fun v => v.2.reverse).toList

/-- The memory that is read on the host. -/
def Hip.ofMem (m : Mem) : Hip where
  toHost p size := some (m.read p size.toNat)
  toDevice _ _ := true

end TrtShim.Backend
