import TrtShim.Backend.Staged

/-! # The caller's buffers

A run looks buffers up under the names of the outputs and of the parameters that
are no outputs, and under no others. It is refused before anything happens if a
parameter is without a buffer; an output of a staged engine is no parameter, and
its buffer is looked up after the evaluation.
-/

namespace TrtShim.Backend

open Std

variable {M : Migraphx}

namespace EngineImpl

variable (e : EngineImpl M) (hip : Hip) (devicePtrs : DevicePtrs) (concrete : ConcreteDims)

/-- The IO tensor whose buffer the zero-copy path binds to a parameter. -/
def bufferName (pname : Bytes) : Option Bytes :=
  if isOutputParam pname then do
    let idx ← outputIndex pname
    let out ← if idx < 0 then none else e.outputs[idx.toNat]?
    return out.name
  else some pname

/-- The shape with which the staged path copies a parameter. -/
def stageShape (p : Bytes × Shape) : Shape :=
  match concrete[p.1]? with
  | some dims => M.shape (e.inputDatatype p.1) (dims.map Int64.toUInt64)
  | none => p.2

/-- A parameter cannot be bound: there is no IO tensor for it, its buffer is missing, or the staged
path fails to copy its buffer. -/
def Unbound (p : Bytes × Shape) : Prop :=
  if e.zeroCopy then ∀ name, e.bufferName p.1 = some name → name ∉ devicePtrs
  else ∀ src, devicePtrs[p.1]? = some src → hip.toHost src (e.stageShape concrete p).bytes = none

variable {e hip devicePtrs concrete}

theorem map_lookupParam (concrete : ConcreteDims) (pname : Bytes) :
    (e.lookupParam concrete pname).map (fun r => r.1) = e.bufferName pname := by
  unfold lookupParam bufferName
  split
  · rcases outputIndex pname with _ | idx
    · rfl
    · by_cases hneg : idx < 0
      · simp [hneg]
      · rcases hout : e.outputs[idx.toNat]? with _ | out
        · simp [hneg, hout]
        · simp [hneg, hout]
  · rfl

theorem mem_of_bufferName {pname name : Bytes} (h : e.bufferName pname = some name) :
    (∃ io ∈ e.outputs, io.name = name) ∨ isOutputParam pname = false ∧ name = pname := by
  unfold bufferName at h
  split at h
  next =>
    obtain ⟨idx, -, hidx⟩ := Option.bind_eq_some_iff.mp h
    split at hidx
    · exact absurd hidx (by simp)
    · obtain ⟨out, hout, hname⟩ := Option.bind_eq_some_iff.mp hidx
      exact .inl ⟨out, List.mem_of_getElem? hout, Option.some.inj hname⟩
  next hin =>
    obtain rfl := Option.some.inj h
    exact .inr ⟨Bool.eq_false_iff.mpr hin, rfl⟩

theorem isSome_bindParam_iff {pname : Bytes} :
    (e.bindParam devicePtrs concrete pname).isSome ↔
      ∃ name, e.bufferName pname = some name ∧ name ∈ devicePtrs := by
  rw [bindParam, ← map_lookupParam concrete]
  rcases e.lookupParam concrete pname with _ | ⟨name, dims, dt⟩
  · simp
  · rw [Option.map_some]
    constructor
    · intro h
      rcases hptr : devicePtrs[name]? with _ | ptr
      · simp [hptr] at h
      · exact ⟨name, rfl, OrderedMap.mem_iff_exists.mpr ⟨ptr, hptr⟩⟩
    · rintro ⟨_, hname, hmem⟩
      obtain rfl := Option.some.inj hname
      obtain ⟨ptr, hptr⟩ := OrderedMap.mem_iff_exists.mp hmem
      simp [hptr]

theorem isSome_stageParam_iff {p : Bytes × Shape} :
    (e.stageParam hip devicePtrs concrete p).isSome ↔
      ∃ src, devicePtrs[p.1]? = some src ∧
        hip.toHost src (e.stageShape concrete p).bytes ≠ none := by
  change (Option.bind _ _).isSome ↔ _
  rcases devicePtrs[p.1]? with _ | src
  · simp
  · change (Option.bind (hip.toHost src (e.stageShape concrete p).bytes) _).isSome ↔ _
    rcases hhost : hip.toHost src (e.stageShape concrete p).bytes with _ | staging
    · simp [hhost]
    · simp [hhost]

theorem runZeroCopy_eq_refused_iff {stream : Ptr} :
    e.runZeroCopy devicePtrs concrete stream = { returned := false } ↔
      ¬ ∀ p ∈ M.getParameterShapes e.prog, (e.bindParam devicePtrs concrete p.1).isSome := by
  have hall := Lists.isSome_mapM_iff (f := e.bindParam devicePtrs concrete)
    (l := (M.getParameterShapes e.prog).map Prod.fst)
  rw [List.forall_mem_map] at hall
  rw [← hall, runZeroCopy]
  rcases ((M.getParameterShapes e.prog).map Prod.fst).mapM (e.bindParam devicePtrs concrete)
    with _ | params
  · simp
  · simp

theorem runStaged_eq_refused_iff :
    e.runStaged hip devicePtrs concrete = { returned := false } ↔
      ¬ ∀ p ∈ M.getParameterShapes e.prog,
        (e.stageParam hip devicePtrs concrete p).isSome := by
  rw [← Lists.isSome_mapM_iff, runStaged]
  rcases (M.getParameterShapes e.prog).mapM (e.stageParam hip devicePtrs concrete) with _ | params
  · simp
  · simp only [Option.isSome_some, not_true_eq_false, iff_false]
    rcases M.eval e.prog params with what | results
    · simp
    · simp

/-- A run is refused exactly if some parameter cannot be bound. -/
theorem run_eq_refused_iff {stream : Ptr} :
    e.run hip devicePtrs concrete stream = { returned := false } ↔
      ∃ p ∈ M.getParameterShapes e.prog, e.Unbound hip devicePtrs concrete p := by
  rw [run]
  split
  next hz =>
    rw [runZeroCopy_eq_refused_iff]
    simp only [isSome_bindParam_iff, Unbound, hz, if_true, not_forall, not_exists, not_and,
      exists_prop]
  next hz =>
    rw [runStaged_eq_refused_iff]
    simp only [isSome_stageParam_iff, Unbound, hz, if_false, not_forall, not_exists, not_and,
      not_not, exists_prop, Bool.false_eq_true]

theorem deliver_congr {devicePtrs' : DevicePtrs} {results : List Argument} {oi : ℕ}
    {outs : List IOTensor} (h : ∀ io ∈ outs, devicePtrs[io.name]? = devicePtrs'[io.name]?) :
    deliver hip devicePtrs results oi outs = deliver hip devicePtrs' results oi outs := by
  induction outs generalizing oi with
  | nil => rfl
  | cons out outs ih =>
    rw [List.forall_mem_cons] at h
    rw [deliver, deliver, h.1, ih h.2]

/-- Runs on maps with the same buffers for the outputs and for the parameters that are no outputs
do the same. -/
theorem run_congr {devicePtrs' : DevicePtrs} {stream : Ptr}
    (hout : ∀ io ∈ e.outputs, devicePtrs[io.name]? = devicePtrs'[io.name]?)
    (hparam : ∀ p ∈ M.getParameterShapes e.prog, isOutputParam p.1 = false →
      devicePtrs[p.1]? = devicePtrs'[p.1]?) :
    e.run hip devicePtrs concrete stream = e.run hip devicePtrs' concrete stream := by
  unfold run
  split
  next =>
    have hbind : ∀ pname ∈ (M.getParameterShapes e.prog).map Prod.fst,
        e.bindParam devicePtrs concrete pname = e.bindParam devicePtrs' concrete pname := by
      rw [List.forall_mem_map]
      intro p hp
      rw [bindParam, bindParam]
      rcases hl : e.lookupParam concrete p.1 with _ | ⟨name, dims, dt⟩
      · rfl
      · have hname : e.bufferName p.1 = some name := by
          rw [← map_lookupParam concrete, hl, Option.map_some]
        have hptr : devicePtrs[name]? = devicePtrs'[name]? := by
          rcases mem_of_bufferName hname with ⟨io, hio, rfl⟩ | ⟨hin, rfl⟩
          · exact hout io hio
          · exact hparam p hp hin
        simp only [Option.bind_eq_bind, Option.bind_some, hptr]
    rw [runZeroCopy, runZeroCopy, Lists.mapM_congr hbind]
  next hz =>
    have hstage : ∀ p ∈ M.getParameterShapes e.prog,
        e.stageParam hip devicePtrs concrete p = e.stageParam hip devicePtrs' concrete p := by
      intro p hp
      have hin : isOutputParam p.1 = false := by
        rw [zeroCopy, List.any_eq_true, not_exists] at hz
        exact Bool.eq_false_iff.mpr fun ht => hz p ⟨hp, ht⟩
      rw [stageParam, stageParam, hparam p hp hin]
    have hdeliver : ∀ results, deliver hip devicePtrs results 0 e.outputs =
        deliver hip devicePtrs' results 0 e.outputs := fun _ => deliver_congr hout
    rw [runStaged, runStaged, Lists.mapM_congr hstage]
    simp only [hdeliver]

theorem bufferName_output {k : ℕ} (hk : k < 2 ^ 31) :
    e.bufferName (Param.output k).name = (e.outputs[k]?).map fun io => io.name := by
  have hnn : ¬ (k : ℤ) < 0 := by omega
  rw [bufferName, if_pos (isOutputParam_output k), outputIndex_output hk]
  simp only [Option.bind_eq_bind, Option.bind_some, hnn, if_false, Int.toNat_natCast]
  exact Option.map_eq_bind.symm

/-- On the zero-copy path an output parameter needs the buffer of the IO tensor at its index. -/
theorem unbound_output_iff (hz : e.zeroCopy = true) {k : ℕ} (hk : k < 2 ^ 31) (s : Shape) :
    e.Unbound hip devicePtrs concrete ((Param.output k).name, s) ↔
      ∀ io, e.outputs[k]? = some io → io.name ∉ devicePtrs := by
  rw [Unbound, if_pos hz, bufferName_output hk]
  rcases e.outputs[k]? with _ | io
  · simp
  · simp

end EngineImpl

/-- A static engine refuses to run without a buffer for each of its IO tensors. -/
theorem refused_static {ps : ParameterSet} {onnxNames : List Bytes} {e : EngineImpl M} {hip : Hip}
    {devicePtrs : DevicePtrs} {concrete : ConcreteDims} {stream : Ptr}
    (hios : buildIos none ps.entries onnxNames = some e.ios)
    (hperm : ((M.getParameterShapes e.prog).map Prod.fst).Perm (ps.entries.map Prod.fst))
    {io : IOTensor} (hio : io ∈ e.ios) (hmissing : io.name ∉ devicePtrs) :
    e.run hip devicePtrs concrete stream = { returned := false } := by
  have hparam {p : Param} {s : Shape} (h : (p, s) ∈ ps.params) :
      ∃ s', (p.name, s') ∈ M.getParameterShapes e.prog := by
    obtain ⟨⟨-, s'⟩, hq, rfl⟩ := List.mem_map.mp (mem_names hperm h)
    exact ⟨s', hq⟩
  rw [EngineImpl.run_eq_refused_iff]
  rcases (mem_ios hios).mp hio with ⟨name, s, hin, rfl⟩ | ⟨k, s, hk, rfl⟩
  · obtain ⟨s', hq⟩ := hparam hin
    change name ∉ devicePtrs at hmissing
    refine ⟨_, hq, ?_⟩
    unfold EngineImpl.Unbound
    split
    next =>
      have hb : e.bufferName name = some name := by
        rw [EngineImpl.bufferName, (ps.input_name name s hin).1]
        rfl
      rintro _ hbuffer
      obtain rfl := Option.some.inj (hb.symm.trans hbuffer)
      exact hmissing
    next =>
      intro src hsrc
      exact absurd ((TreeMap.getElem?_eq_none hmissing).symm.trans hsrc) (by simp)
  · obtain ⟨s', hq⟩ := hparam hk
    have hz : e.zeroCopy = true := List.any_eq_true.mpr ⟨_, hq, isOutputParam_output k⟩
    by_cases hlt : ∀ k s, (.output k, s) ∈ ps.params → k < (outputsOf ps.params).length
    · refine ⟨_, hq, (EngineImpl.unbound_output_iff hz (ps.output_lt k s hk) s').mpr ?_⟩
      intro io hio
      obtain rfl := Option.some.inj ((output_getElem? hios hlt hk).symm.trans hio)
      exact hmissing
    · simp only [not_forall] at hlt
      obtain ⟨k', t, hk', hge⟩ := hlt
      obtain ⟨t', hq'⟩ := hparam hk'
      have hnone : e.outputs[k']? = none := by
        rw [EngineImpl.outputs_static hios, List.getElem?_eq_none_iff, List.length_map,
          ps.length_outputs]
        exact Nat.le_of_not_lt hge
      refine ⟨_, hq', (EngineImpl.unbound_output_iff hz (ps.output_lt k' t hk') t').mpr ?_⟩
      intro io hio
      exact absurd (hnone.symm.trans hio) (by simp)

/-- A run without a buffer for every IO tensor is refused before anything happens exactly if some
parameter of the program cannot be bound. In a static engine one cannot be. -/
theorem missing_refused_iff (M : Migraphx) (hip : Hip) (e : EngineImpl M) (devicePtrs : DevicePtrs)
    (concrete : ConcreteDims) (stream : Ptr) :
    (((∃ io ∈ e.ios, io.name ∉ devicePtrs) →
      e.run hip devicePtrs concrete stream =
        { returned := false, started := none, copies := [] }) ↔
    (∀ io ∈ e.ios, io.name ∈ devicePtrs) ∨
      ∃ p ∈ M.getParameterShapes e.prog, e.Unbound hip devicePtrs concrete p) ∧
    ∀ (ps : ParameterSet) (onnxNames : List Bytes),
      buildIos none ps.entries onnxNames = some e.ios →
      ((M.getParameterShapes e.prog).map Prod.fst).Perm (ps.entries.map Prod.fst) →
      (∃ io ∈ e.ios, io.name ∉ devicePtrs) →
        e.run hip devicePtrs concrete stream =
          { returned := false, started := none, copies := [] } := by
  refine ⟨?_, fun ps onnxNames hios hperm ⟨io, hio, hmissing⟩ =>
    refused_static hios hperm hio hmissing⟩
  rw [EngineImpl.run_eq_refused_iff]
  constructor
  · intro h
    by_cases hcover : ∀ io ∈ e.ios, io.name ∈ devicePtrs
    · exact .inl hcover
    · simp only [not_forall, exists_prop] at hcover
      exact .inr (h hcover)
  · rintro (hcover | hunbound)
    · rintro ⟨io, hio, hmissing⟩
      exact absurd (hcover io hio) hmissing
    · exact fun _ => hunbound

/-- The buffer of the second output is missing, and the first output has been written. -/
theorem missing_not_refused :
    let e : EngineImpl (.single [(text "x", floatPair)] [floatResult 10, floatResult 11]) :=
      ⟨(), [inputTensor (text "x", floatPair), outputTensor [] (0, floatPair),
        outputTensor [] (1, floatPair)].map (markDynamic { input := text "x" })⟩
    let devicePtrs := OrderedMap.fill ∅ [(text "x", 16), (text "output_0", 32)]
    let run := e.run .plain devicePtrs ∅ 0
    (∃ io ∈ e.ios, io.name ∉ devicePtrs) ∧ run.returned = false ∧ run.started.isSome ∧
      run.copies = [⟨32, 0, floatResult 10⟩] := by
  decide +kernel

end TrtShim.Backend
