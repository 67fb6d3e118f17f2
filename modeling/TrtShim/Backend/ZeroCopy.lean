import TrtShim.Backend.Load

/-! # The zero-copy path

The outputs of an engine stand in a dense list, and the program names them by
their indices. A run that gets as far as calling MIGraphX has bound every
parameter to its own buffer, and it gets that far when the indices have no gap.
-/

namespace TrtShim.Backend

open Std

variable {M : Migraphx}

theorem buildIos_static (ps : ParameterSet) (onnxNames : List Bytes) :
    buildIos none ps.entries onnxNames = some ((inputsOf ps.params).map inputTensor ++
      ps.outputs.map (outputTensor onnxNames)) := by
  simp [buildIos, ps.splitIo_entries]

theorem mem_ios {ps : ParameterSet} {onnxNames : List Bytes} {ios : List IOTensor}
    (hios : buildIos none ps.entries onnxNames = some ios) {io : IOTensor} :
    io ∈ ios ↔ (∃ name s, (.input name, s) ∈ ps.params ∧ io = inputTensor (name, s)) ∨
      ∃ k s, (.output k, s) ∈ ps.params ∧ io = outputTensor onnxNames (k, s) := by
  rw [buildIos_static, Option.some.injEq] at hios
  simp [← hios, mem_inputsOf, ps.mem_outputs, eq_comm]

namespace EngineImpl

variable {e : EngineImpl M}

theorem outputs_of_append {inputs outputs : List IOTensor} (hios : e.ios = inputs ++ outputs)
    (hin : ∀ io ∈ inputs, io.dir = .kInput) (hout : ∀ io ∈ outputs, io.dir = .kOutput) :
    e.outputs = outputs := by
  have hne : IODir.kOutput ≠ IODir.kInput := by decide
  have hin' : inputs.filter (fun io => io.dir ≠ .kInput) = [] :=
    List.filter_eq_nil_iff.mpr fun io h => by simp [hin io h]
  have hout' : outputs.filter (fun io => io.dir ≠ .kInput) = outputs :=
    List.filter_eq_self.mpr fun io h => by simp [hout io h, hne]
  rw [EngineImpl.outputs, hios, List.filter_append, hin', hout', List.nil_append]

/-- The outputs of a static engine, in the order of their indices. -/
theorem outputs_static {ps : ParameterSet} {onnxNames : List Bytes}
    (hios : buildIos none ps.entries onnxNames = some e.ios) :
    e.outputs = ps.outputs.map (outputTensor onnxNames) := by
  rw [buildIos_static, Option.some.injEq] at hios
  refine outputs_of_append hios.symm ?_ ?_
  · exact List.forall_mem_map.mpr fun _ _ => rfl
  · exact List.forall_mem_map.mpr fun _ _ => rfl

theorem resolve_of_nonneg {dims : List Int64} {batch : Int64} (h : ∀ d ∈ dims, ¬ d < 0) :
    resolve dims batch = dims :=
  (List.map_congr_left fun d hd => if_neg (h d hd)).trans (List.map_id' dims)

variable {devicePtrs : DevicePtrs} {concrete : ConcreteDims}

theorem bindParam_fst {pname : Bytes} {p : Bytes × Argument}
    (h : e.bindParam devicePtrs concrete pname = some p) : p.1 = pname := by
  simp only [bindParam, Option.bind_eq_bind, Option.bind_eq_some_iff] at h
  obtain ⟨_, _, _, _, he⟩ := h
  rw [← Option.some.inj he]

theorem bindParam_input (e : EngineImpl M) (devicePtrs : DevicePtrs) (concrete : ConcreteDims)
    {name : Bytes} (hn : isOutputParam name = false) :
    ∃ shape, e.bindParam devicePtrs concrete name =
      (devicePtrs[name]?).map fun ptr => (name, ⟨shape, .device ptr⟩) := by
  simp only [bindParam, lookupParam, hn, Bool.false_eq_true, if_false, Option.bind_eq_bind]
  exact ⟨_, Option.map_eq_bind.symm⟩

theorem bindParam_output {k : ℕ} (hk : k < 2 ^ 31) :
    e.bindParam devicePtrs concrete (Param.output k).name = (do
      let out ← e.outputs[k]?
      let ptr ← devicePtrs[out.name]?
      return ((Param.output k).name, ⟨M.shape out.datatype
        ((resolve out.dims (e.dynamicBatch concrete)).map Int64.toUInt64), .device ptr⟩)) := by
  have hnn : ¬ (k : ℤ) < 0 := by omega
  simp [bindParam, lookupParam, isOutputParam_output, outputIndex_output hk, hnn,
    Option.bind_assoc]

theorem started_eq_some {stream : Ptr} {params : ProgramParameters} :
    (e.runZeroCopy devicePtrs concrete stream).started = some params ↔
      ((M.getParameterShapes e.prog).map Prod.fst).mapM (e.bindParam devicePtrs concrete) =
        some params := by
  simp only [runZeroCopy]
  cases (List.mapM (e.bindParam devicePtrs concrete)
    ((M.getParameterShapes e.prog).map Prod.fst)) <;> simp

end EngineImpl

theorem toInt64_nonneg {l : UInt64} (h : l.toNat < 2 ^ 63) : ¬ l.toInt64 < 0 := by
  rw [Int64.not_lt, Int64.le_iff_toInt_le]
  change 0 ≤ l.toBitVec.toInt
  rw [BitVec.toInt_eq_toNat_of_lt]
  · exact Int.natCast_nonneg _
  · change 2 * l.toNat < 2 ^ 64
    omega

/-- The lengths fit the `int64_t` values in which a model and its IO tensors hold dimensions. -/
def Shape.FitsDims (s : Shape) : Prop := ∀ l ∈ s.lengths, l.toNat < 2 ^ 63

instance (s : Shape) : Decidable s.FitsDims :=
  List.decidableBAll (fun l : UInt64 => l.toNat < 2 ^ 63) s.lengths

theorem Shape.FitsDims.not_neg {s : Shape} (h : s.FitsDims) :
    ∀ d ∈ s.lengths.map UInt64.toInt64, ¬ d < 0 :=
  List.forall_mem_map.mpr fun l hl => toInt64_nonneg (h l hl)

theorem output_getElem? {ps : ParameterSet} {onnxNames : List Bytes} {e : EngineImpl M}
    (hios : buildIos none ps.entries onnxNames = some e.ios)
    (hlt : ∀ k s, (.output k, s) ∈ ps.params → k < (outputsOf ps.params).length) {k : ℕ}
    {s : Shape} (hk : (.output k, s) ∈ ps.params) :
    e.outputs[k]? = some (outputTensor onnxNames (k, s)) := by
  rw [EngineImpl.outputs_static hios, List.getElem?_map, ps.getElem?_outputs hlt hk,
    Option.map_some]

theorem lt_of_bindParam {ps : ParameterSet} {onnxNames : List Bytes} {e : EngineImpl M}
    {devicePtrs : DevicePtrs} {concrete : ConcreteDims} {k : ℕ} {s : Shape}
    {a : Bytes × Argument} (hios : buildIos none ps.entries onnxNames = some e.ios)
    (hk : (.output k, s) ∈ ps.params)
    (ha : e.bindParam devicePtrs concrete (Param.output k).name = some a) :
    k < (outputsOf ps.params).length := by
  rw [EngineImpl.bindParam_output (ps.output_lt k s hk), EngineImpl.outputs_static hios,
    Option.bind_eq_bind, Option.bind_eq_some_iff] at ha
  obtain ⟨out, hout, _⟩ := ha
  have hl := (List.getElem?_eq_some_iff.mp hout).1
  rwa [List.length_map, ps.length_outputs] at hl

theorem mem_names {ps : ParameterSet} {names : List Bytes}
    (hperm : names.Perm (ps.entries.map Prod.fst)) {p : Param} {s : Shape}
    (h : (p, s) ∈ ps.params) : p.name ∈ names :=
  hperm.mem_iff.mpr (List.mem_map_of_mem (ps.mem_entries.mpr ⟨p, h, rfl⟩))

/-- A shape of two `float` elements. -/
def floatPair : Shape := ⟨4, [2], 2, 8⟩

/-- The parameters of a program with one input and the outputs of these indices. -/
def ParameterSet.withOutputs (ks : List ℕ) (hn : ks.Nodup) (hlt : ∀ k ∈ ks, k < 2 ^ 31) :
    ParameterSet where
  params := (.input (text "x"), floatPair) :: ks.map fun k => (.output k, floatPair)
  nodup := by
    have hinj : Function.Injective Param.output := fun _ _ h => Param.output.inj h
    simpa [Function.comp_def] using hn.map hinj
  input_name name s h := by
    obtain ⟨rfl, -⟩ : name = text "x" ∧ s = floatPair := by simpa using h
    decide
  output_lt k s h := by
    obtain ⟨hk, -⟩ : k ∈ ks ∧ s = floatPair := by simpa [eq_comm] using h
    exact hlt k hk

section WithOutputs

variable {ks : List ℕ} {hn : ks.Nodup} {hlt : ∀ k ∈ ks, k < 2 ^ 31} {s : Shape}

theorem ParameterSet.input_mem_withOutputs {name : Bytes} :
    (.input name, s) ∈ (withOutputs ks hn hlt).params ↔ name = text "x" ∧ s = floatPair := by
  simp [withOutputs]

theorem ParameterSet.output_mem_withOutputs {k : ℕ} :
    (.output k, s) ∈ (withOutputs ks hn hlt).params ↔ k ∈ ks ∧ s = floatPair := by
  simp [withOutputs, eq_comm]

theorem ParameterSet.forall_output_withOutputs {P : ℕ → Prop} (h : ∀ k ∈ ks, P k) :
    ∀ k s, (.output k, s) ∈ (withOutputs ks hn hlt).params → P k :=
  fun k _ hk => h k (output_mem_withOutputs.mp hk).1

end WithOutputs

/-- A run that reaches MIGraphX has added every parameter once. An input has the buffer of its
name, and the output of an index has the buffer, the datatype and the dimensions that its IO tensor
gives. -/
theorem runZeroCopy_binds (M : Migraphx) (ps : ParameterSet) (onnxNames : List Bytes)
    (ios : List IOTensor) (mxr : Bytes) (host : Host) (b : Buffer) (files : TempFiles)
    (e : EngineImpl M) (devicePtrs : DevicePtrs) (concrete : ConcreteDims) (stream : Ptr)
    (params : ProgramParameters) (hios : buildIos none ps.entries onnxNames = some ios)
    (henc : ∀ io ∈ ios, io.Encodable) (hlen : ios.length < 2 ^ 32)
    (hb : b.bytes = packBlob ios mxr) (he : (load M host b files).engine = some e)
    (hperm : ((M.getParameterShapes e.prog).map Prod.fst).Perm (ps.entries.map Prod.fst))
    (hrun : (e.runZeroCopy devicePtrs concrete stream).started = some params) :
    ((params.map Prod.fst).Perm (ps.entries.map Prod.fst) ∧ (params.map Prod.fst).Nodup) ∧
    (∀ name s, (.input name, s) ∈ ps.params →
      ∃ ptr shape, devicePtrs[name]? = some ptr ∧ (name, ⟨shape, .device ptr⟩) ∈ params) ∧
    ∀ k s, (.output k, s) ∈ ps.params →
      let io := outputTensor onnxNames (k, s)
      let dims := EngineImpl.resolve io.dims (e.dynamicBatch concrete)
      ∃ ptr, devicePtrs[io.name]? = some ptr ∧
        ((Param.output k).name, ⟨M.shape io.datatype (dims.map Int64.toUInt64), .device ptr⟩) ∈
          params ∧
        (s.FitsDims → dims = io.dims) := by
  have hmap := EngineImpl.started_eq_some.mp hrun
  obtain rfl := ios_of_load_packBlob henc hlen hb he
  have hfst : params.map Prod.fst = (M.getParameterShapes e.prog).map Prod.fst := by
    rw [Lists.map_eq_of_mapM_eq_some hmap fun _ _ h => EngineImpl.bindParam_fst h, List.map_id']
  have hbind {p : Param} {s : Shape} (h : (p, s) ∈ ps.params) :=
    Lists.exists_of_mapM_eq_some hmap (mem_names hperm h)
  have hlt k s (h : (.output k, s) ∈ ps.params) : k < (outputsOf ps.params).length := by
    obtain ⟨a, _, ha⟩ := hbind h
    exact lt_of_bindParam hios h ha
  refine ⟨⟨hfst ▸ hperm, hfst ▸ hperm.nodup_iff.mpr ps.names_nodup⟩, ?_, ?_⟩
  · intro name s h
    obtain ⟨a, ha, hba⟩ := hbind h
    obtain ⟨shape, hin⟩ := e.bindParam_input devicePtrs concrete (ps.input_name name s h).1
    rw [Param.name, hin, Option.map_eq_some_iff] at hba
    obtain ⟨ptr, hptr, rfl⟩ := hba
    exact ⟨ptr, shape, hptr, ha⟩
  · intro k s h io dims
    obtain ⟨a, ha, hba⟩ := hbind h
    rw [EngineImpl.bindParam_output (ps.output_lt k s h), output_getElem? hios hlt h,
      Option.bind_eq_bind, Option.bind_some, Option.bind_eq_bind, Option.bind_eq_some_iff] at hba
    obtain ⟨ptr, hptr, hpure⟩ := hba
    rw [← Option.some.inj hpure] at ha
    exact ⟨ptr, hptr, ha, fun hs => EngineImpl.resolve_of_nonneg hs.not_neg⟩

/-- Outputs listed in reverse are still bound to their own buffers. -/
theorem runZeroCopy_binds_reversed :
    let ps := ParameterSet.withOutputs [1, 0] (by decide) (by decide)
    let e : EngineImpl (.single ps.entries []) :=
      ⟨(), [inputTensor (text "x", floatPair), outputTensor [] (0, floatPair),
        outputTensor [] (1, floatPair)]⟩
    let devicePtrs := OrderedMap.fill ∅ [(text "x", 16), (text "output_0", 32),
      (text "output_1", 48)]
    ∃ params ptr, (e.runZeroCopy devicePtrs ∅ 0).started = some params ∧
      (params.map Prod.fst).Perm (ps.entries.map Prod.fst) ∧
      devicePtrs[text "output_1"]? = some ptr ∧
      (text "main:#output_1", ⟨floatPair, .device ptr⟩) ∈ params := by
  intro ps e devicePtrs
  have henc : ∀ io ∈ e.ios, io.Encodable := by decide +kernel
  have hmxr : ([77] : Bytes).length < 2 ^ 63 := by decide
  obtain ⟨params, hrun⟩ : ∃ params, (e.runZeroCopy devicePtrs ∅ 0).started = some params :=
    Option.isSome_iff_exists.mp (by decide +kernel)
  have hload : (load (.single ps.entries []) .plain ⟨packBlob e.ios [77], by decide +kernel⟩
      []).engine = some e ∧ _ :=
    load_packBlob henc (by decide) rfl (Host.plain_keeps hmxr) rfl
  obtain ⟨⟨hperm, -⟩, -, hout⟩ := runZeroCopy_binds _ ps [] e.ios [77] .plain _ [] e devicePtrs ∅ 0
    params (by decide +kernel) henc (by decide) rfl hload.1 (.refl _) hrun
  obtain ⟨ptr, hptr, hmem, hdims⟩ := hout 1 floatPair
    (ParameterSet.output_mem_withOutputs.mpr ⟨by decide, rfl⟩)
  rw [hdims (by decide +kernel)] at hmem
  exact ⟨params, ptr, hrun, hperm, hptr, hmem⟩

/-- With a buffer for every IO tensor, a run reaches MIGraphX exactly when the indices of the
outputs have no gap. -/
theorem runZeroCopy_started_iff (M : Migraphx) (ps : ParameterSet) (onnxNames : List Bytes)
    (e : EngineImpl M) (devicePtrs : DevicePtrs) (concrete : ConcreteDims) (stream : Ptr)
    (hios : buildIos none ps.entries onnxNames = some e.ios)
    (hperm : ((M.getParameterShapes e.prog).map Prod.fst).Perm (ps.entries.map Prod.fst))
    (hcover : ∀ io ∈ e.ios, io.name ∈ devicePtrs) :
    (e.runZeroCopy devicePtrs concrete stream).started.isSome ↔
      ∀ k s, (.output k, s) ∈ ps.params → k < (outputsOf ps.params).length := by
  have hcover {io : IOTensor} (h : io ∈ e.ios) : ∃ ptr, devicePtrs[io.name]? = some ptr :=
    OrderedMap.mem_iff_exists.mp (hcover io h)
  constructor
  · intro hrun k s h
    obtain ⟨params, hrun⟩ := Option.isSome_iff_exists.mp hrun
    obtain ⟨a, _, ha⟩ :=
      Lists.exists_of_mapM_eq_some (EngineImpl.started_eq_some.mp hrun) (mem_names hperm h)
    exact lt_of_bindParam hios h ha
  · intro hlt
    have hbind : ∀ name ∈ (M.getParameterShapes e.prog).map Prod.fst,
        (e.bindParam devicePtrs concrete name).isSome := by
      intro name hname
      obtain ⟨⟨name, s⟩, hentry, rfl⟩ := List.mem_map.mp (hperm.mem_iff.mp hname)
      obtain ⟨p, hp, rfl⟩ := ps.mem_entries.mp hentry
      cases p with
      | input name =>
        obtain ⟨shape, hin⟩ := e.bindParam_input devicePtrs concrete (ps.input_name name s hp).1
        obtain ⟨ptr, hptr⟩ := hcover ((mem_ios hios).mpr (.inl ⟨name, s, hp, rfl⟩))
        change devicePtrs[name]? = some ptr at hptr
        simp [Param.name, hin, hptr]
      | output k =>
        obtain ⟨ptr, hptr⟩ := hcover ((mem_ios hios).mpr (.inr ⟨k, s, hp, rfl⟩))
        simp [EngineImpl.bindParam_output (ps.output_lt k s hp), output_getElem? hios hlt hp, hptr]
    obtain ⟨params, hparams⟩ := Option.isSome_iff_exists.mp (Lists.isSome_mapM_iff.mpr hbind)
    exact Option.isSome_iff_exists.mpr ⟨params, EngineImpl.started_eq_some.mpr hparams⟩

theorem runZeroCopy_started_pair :
    let ps := ParameterSet.withOutputs [1, 0] (by decide) (by decide)
    let e : EngineImpl (.single ps.entries []) :=
      ⟨(), [inputTensor (text "x", floatPair), outputTensor [] (0, floatPair),
        outputTensor [] (1, floatPair)]⟩
    let devicePtrs := OrderedMap.fill ∅ [(text "x", 16), (text "output_0", 32),
      (text "output_1", 48)]
    (e.runZeroCopy devicePtrs ∅ 0).started.isSome := by
  intro ps e devicePtrs
  refine (runZeroCopy_started_iff _ ps [] e devicePtrs ∅ 0 (by decide +kernel) (.refl _)
    (by decide +kernel)).mpr (ParameterSet.forall_output_withOutputs ?_)
  decide

/-- A static engine whose only output has index one cannot be run. -/
theorem runZeroCopy_gap :
    let ps := ParameterSet.withOutputs [1] (by decide) (by decide)
    let e : EngineImpl (.single ps.entries []) :=
      ⟨(), [inputTensor (text "x", floatPair), outputTensor [] (1, floatPair)]⟩
    let devicePtrs := OrderedMap.fill ∅ [(text "x", 16), (text "output_1", 48)]
    buildIos none ps.entries [] = some e.ios ∧ (∀ io ∈ e.ios, io.name ∈ devicePtrs) ∧
      e.runZeroCopy devicePtrs ∅ 0 = { returned := false, started := none } := by
  decide +kernel

end TrtShim.Backend
