import TrtShim.Tools.Outputs

/-! # From a model file to output files

The runner parses, builds and deserializes before it runs. The engine that it gets
lists the tensors that `introspect` reports, so a run that exits with code zero has
computed the model of the file.
-/

namespace TrtShim.Tools

open Backend Shim

variable {M : Migraphx}

/-- The tensors of an engine with these parameters. -/
def tensors (ps : ParameterSet) (onnxNames : List Bytes) : List IOTensor :=
  (inputsOf ps.params).map inputTensor ++ ps.outputs.map (outputTensor onnxNames)

/-- The line for an IO tensor. -/
def tensorLine (io : IOTensor) : Bytes :=
  text "OUT " ++ io.name ++ text " " ++ Decimal.toString (toTrtDtype io.datatype).val.toInt ++
    text " " ++ (text ",").intercalate (io.dims.map fun d => Decimal.toString d.toInt) ++ text "\n"

/-- The bytes that a parser reads from a model file. -/
def modelOf (f : OpenFile) : Bytes := f.content.take f.ftell.toUInt64.toNat

/-- What the runner relies on for the model in a file: the parameters of its program, that the
program survives being saved, and that it computes the model. -/
structure StaticModel (env : Surroundings M) (D : Device M) (typeSize : Int32 → ℕ)
    (ps : ParameterSet) (onnx : Bytes) (model : Model) : Prop where
  packs : M.Packs typeSize
  sized : Sized M typeSize ps
  interface : ∃ interface, env.compiler.Interface interface
  introspected : ∀ prog, env.compiler.introspectProgram onnx = .ok prog →
    M.getParameterShapes prog = ps.entries
  kept : ∀ prog, env.compiler.buildProgram onnx {} none none = some (.ok prog) →
    ∃ content, M.save prog = .ok content ∧ M.load content = .ok prog ∧ env.host.Keeps content
  binds : ∀ prog, env.compiler.buildProgram onnx {} none none = some (.ok prog) →
    D.Binds prog model
  outputs : ps.outputs ≠ []
  names : ((tensors ps (env.onnxNames onnx)).map fun io => io.name).Nodup
  count : (tensors ps (env.onnxNames onnx)).length < 2 ^ 31
  noNul : ∀ io ∈ tensors ps (env.onnxNames onnx), 0 ∉ io.name
  encodable : ∀ io ∈ tensors ps (env.onnxNames onnx), io.Encodable

section Parse

variable {introspect : Bytes → Except String IOInfo} {allocate : UInt64 → Bool}
  {net : ShimNetwork} {file : Option OpenFile}

/-- A model file that was parsed has been read to its end, and its tensors are known. -/
theorem onnx_of_parseFromFile
    (h : ({} : ShimNetwork).parseFromFile introspect allocate file = (.returned true, net)) :
    ∃ f info, file = some f ∧ net.onnx = modelOf f ∧
      introspect net.onnx = .ok info := by
  have hstep : (({} : ShimNetwork).step introspect allocate (.parseFromFile file)) =
      (.returned true, net) := h
  have hcaptured := step_captured introspect allocate {} (.parseFromFile file) (by rw [hstep])
  rw [hstep] at hcaptured
  obtain ⟨info, hinfo, -⟩ := hcaptured
  rcases file with _ | f
  · exact absurd h (by simp [ShimNetwork.parseFromFile])
  · refine ⟨f, info, rfl, ?_, hinfo⟩
    simp only [ShimNetwork.parseFromFile, ShimNetwork.ingest] at h
    split at h
    · split at h
      · split at h
        · split at h
          next => rw [← (Prod.mk.inj h).2]; rfl
          next => exact absurd (Prod.mk.inj h).1 (by simp)
        · exact absurd (Prod.mk.inj h).1 (by simp)
      · exact absurd (Prod.mk.inj h).1 (by simp)
    · exact absurd (Prod.mk.inj h).1 (by simp)

end Parse

section Engine

variable {env : Surroundings M} {D : Device M} {typeSize : Int32 → ℕ} {ps : ParameterSet}
  {onnx : Bytes} {model : Model} {e : ShimEngine M}

/-- The program of a static build has the parameters of the model. -/
theorem StaticModel.parameters (h : StaticModel env D typeSize ps onnx model) {info : IOInfo}
    (hinfo : env.introspect onnx = .ok info) {prog : M.Program}
    (hprog : env.compiler.buildProgram onnx {} none none = some (.ok prog)) :
    M.getParameterShapes prog = ps.entries := by
  obtain ⟨interface, hinterface⟩ := h.interface
  obtain ⟨introspected, hintrospect, -⟩ := Compiler.introspect_eq_ok.mp hinfo
  rw [Compiler.parameters_static hinterface hprog hintrospect, h.introspected _ hintrospect]

/-- The tensors that `introspect` reports for the model. -/
theorem StaticModel.listed_eq (h : StaticModel env D typeSize ps onnx model) {info : IOInfo}
    (hinfo : env.introspect onnx = .ok info) :
    info.listed none = tensors ps (env.onnxNames onnx) := by
  obtain ⟨prog, hprog, hsplit⟩ := Compiler.introspect_eq_ok.mp hinfo
  have hlisted : buildIos none ps.entries (env.onnxNames onnx) = some (info.listed none) := by
    rw [buildIos_listed, ← h.introspected prog hprog, hsplit, Option.map_some]
  rw [buildIos_static, Option.some.injEq] at hlisted
  exact hlisted.symm

/-- The engine that the runner deserializes is static, and its program computes the model. -/
theorem StaticModel.deserialized (h : StaticModel env D typeSize ps onnx model) {info : IOInfo}
    (hinfo : env.introspect onnx = .ok info) {files files' : TempFiles} {blob : Bytes}
    (hbuild : env.compiler.build env.host env.onnxNames onnx {} none none files =
      some (.ok blob, files'))
    (he : (deserializeBuf M env.host blob files').1 = some e) :
    StaticEngine M typeSize ps (env.onnxNames onnx) e ∧ D.Binds e.engine.prog model ∧
      e.ios = tensors ps (env.onnxNames onnx) := by
  obtain ⟨interface, hinterface⟩ := h.interface
  obtain ⟨prog, mxr, hprog, hbytes, rfl⟩ := Compiler.build_introspect hinterface hinfo hbuild
  rw [h.listed_eq hinfo] at he
  obtain ⟨content, hsave, hload, hkeeps⟩ := h.kept prog hprog
  obtain rfl : content = mxr :=
    Except.ok.inj (Prod.mk.inj ((programToBytes_eq hkeeps hsave files).symm.trans hbytes)).1
  have hlength : (tensors ps (env.onnxNames onnx)).length < 2 ^ 32 :=
    Nat.lt_trans h.count (by decide)
  rw [deserializeBuf] at he
  split at he
  next hblob =>
    rw [deserialize_packBlob h.encodable hlength rfl hkeeps hload] at he
    obtain rfl := Option.some.inj he
    have hparams := h.parameters hinfo hprog
    refine ⟨⟨h.packs, h.sized, buildIos_static _ _, ?_, ?_, ?_⟩, h.binds prog hprog, rfl⟩
    · rw [hparams]
    · obtain ⟨q, hq⟩ := List.exists_mem_of_ne_nil _ h.outputs
      have hentry := ps.mem_outputs_iff_entries.mp hq
      rw [← hparams] at hentry
      exact List.any_eq_true.mpr ⟨_, hentry, isOutputParam_output q.1⟩
    · exact positional_iff.mpr ⟨h.names, h.count, h.noNul⟩
  next => exact absurd he (by simp)

theorem outLine_eq (h : StaticEngine M typeSize ps (env.onnxNames onnx) e) {io : IOTensor}
    (hio : io ∈ e.ios) (hrank : io.dims.length ≤ maxDims) : outLine e io.name = tensorLine io := by
  have htensor := tensorOf_of_nodup h.nodup hio
  have hshape : e.getTensorShape io.name = toDims io.dims := by
    rw [ShimEngine.getTensorShape, e.dimsOf_eq, htensor, Option.map_some]
  rw [outLine, hshape, entries_toDims hrank, ShimEngine.getTensorDataType, htensor]
  rfl

end Engine

section Main

variable {env : Surroundings M} {D : Device M} {g : Gpu} {ins : Inputs} {disk : Disk}
  {prog path outdir : Bytes} {args : List Bytes} {m : Mem} {files : TempFiles} {ex : Exit}

/-- A runner that exits with code zero has parsed, built, deserialized and run. -/
theorem engine_of_inferMain
    (hmain : inferMain env D g ins disk (prog :: path :: outdir :: args) m files = some ex)
    (hcode : ex.code = 0) : ∃ f info blob files' e, ins.file path = some f ∧
      env.introspect (modelOf f) = .ok info ∧
      env.compiler.build env.host env.onnxNames (modelOf f) {} none none files =
        some (.ok blob, files') ∧
      (deserializeBuf M env.host blob files').1 = some e ∧
      ex = inferEngine g ins disk e (args.filterMap splitArg) D outdir m := by
  have hfailed : (1 : Int32) ≠ 0 := by decide
  simp only [inferMain] at hmain
  split at hmain
  next => exact absurd hmain (by simp)
  next =>
    obtain rfl := Option.some.inj hmain
    exact absurd hcode hfailed
  next net hparse =>
    obtain ⟨f, info, hf, honnx, hinfo⟩ := onnx_of_parseFromFile hparse
    obtain ⟨⟨built, files'⟩, hbuild, hmain⟩ := Option.bind_eq_some_iff.mp hmain
    rcases built with what | blob
    · obtain rfl := Option.some.inj hmain
      exact absurd hcode hfailed
    · simp only at hmain
      rcases he : (deserializeBuf M env.host blob files').1 with _ | e
      · rw [he] at hmain
        obtain rfl := Option.some.inj hmain
        exact absurd hcode hfailed
      · rw [he] at hmain
        exact ⟨f, info, blob, files', e, hf, honnx ▸ hinfo, honnx ▸ hbuild, he,
          (Option.some.inj hmain).symm⟩

/-- What the runner has reported when it exits with code zero. -/
theorem eq_of_inferMain {D : Device M} {typeSize : Int32 → ℕ} {ps : ParameterSet} {model : Model}
    {f : OpenFile} (hfile : ins.file path = some f)
    (hmodel : StaticModel env D typeSize ps (modelOf f) model)
    (hg : ∀ e : ShimEngine M, e.ios = tensors ps (env.onnxNames (modelOf f)) → g.Works e)
    (houts : (model (named (fileInputs ins (args.filterMap splitArg) ps))).map List.length =
      ps.outputs.map fun q => q.2.bytes.toNat)
    (hfiles : ∀ name s, (.input name, s) ∈ ps.params → ∀ raw,
      ins.readFile (fileFor (args.filterMap splitArg) name) = some raw →
        s.bytes.toNat ≤ raw.length)
    (hmain : inferMain env D g ins disk (prog :: path :: outdir :: args) m files = some ex)
    (hcode : ex.code = 0) :
    let outputs := ps.outputs.map (outputTensor (env.onnxNames (modelOf f)))
    ps.outputs.map Prod.fst = List.range ps.outputs.length ∧
    ex = ⟨0, outputs.flatMap tensorLine, OrderedMap.fill disk.saved (disk.stored
      ((outputs.zip (model (named (fileInputs ins (args.filterMap splitArg) ps)))).map
        fun r => (outFile outdir r.1.name, r.2)))⟩ := by
  intro outputs
  obtain ⟨f', info, blob, files', e, hf', hinfo, hbuild, he, rfl⟩ :=
    engine_of_inferMain hmain hcode
  obtain rfl : f' = f := Option.some.inj (hf'.symm.trans hfile)
  obtain ⟨hengine, hbinds, hios⟩ := hmodel.deserialized hinfo hbuild he
  have hlines : (ps.outputs.flatMap fun q =>
      outLine e (realName (env.onnxNames (modelOf f')) q.1)) = outputs.flatMap tensorLine := by
    rw [List.flatMap_map]
    refine List.flatMap_congr fun q hq => ?_
    have hio : outputTensor (env.onnxNames (modelOf f')) q ∈ e.ios :=
      hios ▸ List.mem_append_right _ (List.mem_map_of_mem hq)
    have hrank := hmodel.sized.rank _ q.2 (ps.mem_outputs.mp hq)
    exact outLine_eq hengine hio (by simpa [outputTensor, ioFromShape] using hrank)
  obtain ⟨hrange, hex⟩ := inferEngine_writes M typeSize ps _ e D model g ins disk _ outdir m hengine
    hbinds (hg e hios) houts hfiles hcode
  refine ⟨hrange, ?_⟩
  rw [hex, hlines, List.zip_map_left, List.map_map]
  rfl

end Main

/-- If the runner exits with code zero for a static model, the GPU works, and the files given hold
enough bytes for their inputs, then it has printed a line for every output, in the order of their
indices, which have no gap. The file for an output holds what the model computes of the files given
for its inputs if the disk stores it and no other output is written to the same path. In the end a
path holds what was stored there last, and what it held before if nothing was. -/
theorem inferMain_writes (env : Surroundings M) (D : Device M) (typeSize : Int32 → ℕ)
    (ps : ParameterSet) (model : Model) (g : Gpu) (ins : Inputs) (disk : Disk)
    (prog path outdir : Bytes) (args : List Bytes) (m : Mem) (files : TempFiles) (f : OpenFile)
    (ex : Exit) (hfile : ins.file path = some f)
    (hmodel : StaticModel env D typeSize ps (modelOf f) model)
    (hg : ∀ e : ShimEngine M, e.ios = tensors ps (env.onnxNames (modelOf f)) → g.Works e)
    (houts : (model (named (fileInputs ins (args.filterMap splitArg) ps))).map List.length =
      ps.outputs.map fun q => q.2.bytes.toNat)
    (hfiles : ∀ name s, (.input name, s) ∈ ps.params → ∀ raw,
      ins.readFile (fileFor (args.filterMap splitArg) name) = some raw →
        s.bytes.toNat ≤ raw.length)
    (hmain : inferMain env D g ins disk (prog :: path :: outdir :: args) m files = some ex)
    (hcode : ex.code = 0) :
    let outputs := ps.outputs.map (outputTensor (env.onnxNames (modelOf f)))
    let writes := (outputs.zip (model (named (fileInputs ins (args.filterMap splitArg) ps)))).map
      fun r => (outFile outdir r.1.name, r.2)
    ps.outputs.map Prod.fst = List.range ps.outputs.length ∧
    ex.stdout = outputs.flatMap tensorLine ∧
    (∀ w ∈ writes, disk.write w.1 w.2 = some w.2 → (∀ w' ∈ writes, w'.1 = w.1 → w' = w) →
      ex.files[w.1]? = some w.2) ∧
    ∀ p, ex.files[p]? = (Lists.lastValue (disk.stored writes) p).or disk.saved[p]? := by
  intro outputs writes
  obtain ⟨hrange, rfl⟩ := eq_of_inferMain hfile hmodel hg houts hfiles hmain hcode
  refine ⟨hrange, rfl, fun w hw hwrite hpath => ?_, fun p => ?_⟩
  · exact Disk.getElem?_fill_stored disk.saved hw hwrite hpath
  · exact OrderedMap.getElem?_fill ..

/-- Surroundings in which every call succeeds, and every file is a model with these parameters. -/
def plainSurroundings (ps : ParameterSet) (model : Model) :
    Surroundings (Migraphx.ofModel ps.entries [] model) where
  compiler := ⟨fun _ _ => .ok true, fun prog _ => .ok prog, .ok, fun prog _ => .ok prog⟩
  onnxNames _ := []
  host := .plain
  hip := .ofMem
  allocate _ := none
  calibrators _ := ⟨.refilling 16, ([], []), 1⟩

theorem staticModel_plain (model : Model) (onnx : Bytes) :
    let ps := ParameterSet.withOutputs [0] (by decide) (by decide)
    StaticModel (plainSurroundings ps model) (.ofModel model) (fun _ => 4) ps onnx model := by
  intro ps
  have hprog : ∀ prog, (plainSurroundings ps model).compiler.buildProgram onnx {} none none =
      some (.ok prog) → prog = true := fun prog h => (Except.ok.inj (Option.some.inj h)).symm
  have hnames : ((tensors ps []).map fun io => io.name).Nodup := by decide +kernel
  have hnul : ∀ io ∈ tensors ps [], 0 ∉ io.name := by decide +kernel
  have hencodable : ∀ io ∈ tensors ps [], io.Encodable := by decide +kernel
  constructor
  case packs => exact packs_of_prod fun _ _ => rfl
  case sized => exact sized_withOutputs rfl
  case interface =>
    refine ⟨fun prog => (Migraphx.ofModel ps.entries [] model).getParameterShapes prog,
      fun prog compiled h => ?_, fun prog _ quantized h => ?_, fun prog quantized h => ?_⟩
    · rw [← Except.ok.inj h]
    · rw [← Except.ok.inj h]
    · rw [← Except.ok.inj h]
  case introspected => exact fun prog h => Except.ok.inj h ▸ rfl
  case kept =>
    intro prog h
    obtain rfl := hprog prog h
    exact ⟨[77], rfl, rfl, Host.plain_keeps (by decide)⟩
  case binds => exact fun _ _ => binds_ofModel
  case outputs => exact List.ne_nil_of_length_pos (by decide)
  case names => exact hnames
  case count => exact Nat.lt_of_le_of_lt (Nat.le_refl 2) (by decide)
  case noNul => exact hnul
  case encodable => exact hencodable

/-- A GPU that works, with an allocation of up to sixteen bytes at each multiple of sixteen. -/
def Gpu.every16 : Gpu where
  malloc i _ := 16 * UInt64.ofNat (i + 1)
  copies _ _ := true

/-- Allocations are as large as the list of IO tensors says. -/
theorem allocated_congr {e e' : ShimEngine M} (h : e.ios = e'.ios) :
    allocated e = allocated e' := by
  have hname : nameAt e = nameAt e' := by
    funext i
    rw [nameAt, nameAt, ShimEngine.getIOTensorName, ShimEngine.getIOTensorName,
      ShimEngine.getNbIOTensors, ShimEngine.getNbIOTensors, h]
  have hsize : e.bufferSize = e'.bufferSize := by
    funext name
    rw [ShimEngine.bufferSize, ShimEngine.bufferSize, ShimEngine.getTensorShape,
      ShimEngine.getTensorShape, e.dimsOf_eq, e'.dimsOf_eq,
      ShimEngine.getTensorBytesPerComponent, ShimEngine.getTensorBytesPerComponent, h]
  funext i
  rw [allocated, allocated, hname, hsize]

theorem every16_works :
    let ps := ParameterSet.withOutputs [0] (by decide) (by decide)
    ∀ e : ShimEngine (Migraphx.ofModel ps.entries [] reverseModel), e.ios = tensors ps [] →
      Gpu.every16.Works e := by
  intro ps e hios
  let e₀ : ShimEngine (Migraphx.ofModel ps.entries [] reverseModel) :=
    ⟨⟨true, tensors ps []⟩, ⟨[], by decide⟩⟩
  have hsize : ∀ i < 2, (allocated e₀ i).toNat = 8 := by decide +kernel
  have hptr : ∀ i < 2, (16 * UInt64.ofNat (i + 1)).toNat = 16 * (i + 1) := by decide
  have hsizes : allocated e = allocated e₀ := allocated_congr hios
  refine ⟨fun _ _ => rfl, fun i hi j hj hne => ?_⟩
  rw [hios] at hi hj
  have hp : (slot .every16 e i).toNat = 16 * (i + 1) := hptr i hi
  have hq : (slot .every16 e j).toNat = 16 * (j + 1) := hptr j hj
  have hi : i < 2 := hi
  have hj : j < 2 := hj
  rw [hsizes, hsize i hi, hsize j hj]
  rcases Nat.lt_or_gt_of_ne hne with hlt | hlt
  · exact Mem.apart_of_le (by omega) (by omega)
  · exact (Mem.apart_of_le (by omega) (by omega)).symm

/-- A model file, and a file with the bytes of one input. -/
def twoFiles : Inputs where
  file p :=
    if p = text "m" then some ⟨1, [1]⟩
    else if p = text "in" then some ⟨8, [1, 2, 3, 4, 5, 6, 7, 8]⟩
    else none
  allocate _ := true

/-- A disk without files that stores everything. -/
def Disk.plain : Disk where
  saved := ∅
  write _ bytes := some bytes

theorem inferMain_writes_reverse :
    let ps := ParameterSet.withOutputs [0] (by decide) (by decide)
    let D : Device (Migraphx.ofModel ps.entries [] reverseModel) := .ofModel reverseModel
    ∃ ex, inferMain (plainSurroundings ps reverseModel) D .every16 twoFiles .plain
        [text "infer", text "m", text "out", text "x=in"] (Mem.ofBytes 0 []) [] = some ex ∧
      ex.stdout = text "OUT output_0 0 2\n" ∧
      ex.files[text "out/output_0.bin"]? = some [8, 7, 6, 5, 4, 3, 2, 1] := by
  intro ps D
  let argv := [text "infer", text "m", text "out", text "x=in"]
  obtain ⟨ex, hmain⟩ := Option.isSome_iff_exists.mp
    (by decide +kernel : (inferMain (plainSurroundings ps reverseModel) D .every16 twoFiles .plain
      argv (Mem.ofBytes 0 []) []).isSome)
  have hcode : (inferMain (plainSurroundings ps reverseModel) D .every16 twoFiles .plain argv
      (Mem.ofBytes 0 []) []).map Exit.code = some 0 := by decide +kernel
  rw [hmain] at hcode
  have hfiles : ∀ name s, (.input name, s) ∈ ps.params → ∀ raw,
      twoFiles.readFile (fileFor ([text "x=in"].filterMap splitArg) name) = some raw →
        s.bytes.toNat ≤ raw.length := by
    intro name s hs raw hraw
    obtain ⟨rfl, rfl⟩ := ParameterSet.input_mem_withOutputs.mp hs
    obtain rfl : [1, 2, 3, 4, 5, 6, 7, 8] = raw := Option.some.inj hraw
    decide
  obtain ⟨-, hstdout, -, hsaved⟩ := inferMain_writes _ D (fun _ => 4) ps reverseModel .every16
    twoFiles .plain _ _ _ _ _ [] ⟨1, [1]⟩ ex rfl (staticModel_plain reverseModel _) every16_works
    (by decide +kernel) hfiles hmain (Option.some.inj hcode)
  refine ⟨ex, hmain, hstdout.trans (by decide +kernel), ?_⟩
  rw [hsaved]
  decide +kernel

end TrtShim.Tools
