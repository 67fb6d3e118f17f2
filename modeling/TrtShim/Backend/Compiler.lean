import TrtShim.Backend.Build
import TrtShim.Backend.Calibration

/-! # From a model to an engine

`introspect` and `build` parse the same bytes, with the free dimensions of the model
set to one, or in `build` to the range of a profile. Without quantization a static
build compiles the program that `introspect` has compiled, and a dynamic build
lists it, so the IO tensors of an engine are those that `introspect` reports.
-/

namespace TrtShim.Backend

open Std

variable {M : Migraphx}

/-- What the ONNX options say of the free dimensions of a model. -/
inductive FreeDims where
  | fixed (value : UInt64)
  | dynamic (min max optimal : UInt64)

/-- The MIGraphX calls that make a program. A call that throws returns the text of the exception. -/
structure Compiler (M : Migraphx) where
  parse : Bytes → FreeDims → Except String M.Program
  quantizeInt8 : M.Program → List ProgramParameters → Except String M.Program
  quantizeFp16 : M.Program → Except String M.Program
  /-- `compile` for the GPU, with or without offload copies. -/
  compile : M.Program → Bool → Except String M.Program

/-- The IO list of an engine whose model has these inputs and outputs. -/
def IOInfo.listed (info : IOInfo) : Option DynamicAxis → List IOTensor
  | none => info.inputs ++ info.outputs
  | some dyn => (info.inputs ++ info.outputs).map (markDynamic dyn)

theorem buildIos_listed (dyn : Option DynamicAxis) (shapes : List (Bytes × Shape))
    (names : List Bytes) : buildIos dyn shapes names =
      (splitIo shapes names).map fun p => IOInfo.listed ⟨p.1, p.2⟩ dyn := by
  unfold buildIos IOInfo.listed
  rcases splitIo shapes names with _ | ⟨inputs, outputs⟩
  · rfl
  · cases dyn with
    | none => rfl
    | some dyn => rfl

/-- A calibration source in a state, with the number of batches after which it is given up. -/
structure Calibration where
  source : CalibrationSource
  state : source.State
  passes : ℕ

namespace Compiler

variable (C : Compiler M)

/-- The program that `introspect` compiles. -/
def introspectProgram (onnx : Bytes) : Except String M.Program := do
  let prog ← C.parse onnx (.fixed 1)
  C.compile prog false

/-- `introspect`, for the output names of a model. -/
def introspect (onnxNames : Bytes → List Bytes) (onnx : Bytes) : Except String IOInfo := do
  let prog ← C.introspectProgram onnx
  match splitIo (M.getParameterShapes prog) (onnxNames onnx) with
  | none => .error "stoi"
  | some (inputs, outputs) => return { inputs, outputs }

/-- The options that `build` sets for the free dimensions. -/
def freeDims : Option DynamicAxis → FreeDims
  | some dyn => .dynamic dyn.min.toUInt64 dyn.max.toUInt64 dyn.opt.toUInt64
  | none => .fixed 1

/-- The int8 quantization of `build`; no value stands for a calibration that does not end. Every
parameter of a program that is not compiled is an input. -/
def calibrated (c : Calibration) (prog : M.Program) : Option (Except String M.Program) := do
  let inputs := (M.getParameterShapes prog).map inputTensor
  match ← calibrate M c.source inputs c.passes c.state with
  | (.error what, _) => return .error what
  | (.ok k, _) =>
    if k.kept = [] then return .ok prog
    else return C.quantizeInt8 prog (← k.arguments)

/-- `apply_quantization`. -/
def applyQuantization (prog : M.Program) (opts : BuildOptions) : Except String M.Program :=
  if opts.fp16 then C.quantizeFp16 prog else .ok prog

/-- The stage of `build` that quantizes to int8. -/
def int8Stage (opts : BuildOptions) (calib : Option Calibration) (prog : M.Program) :
    Option (Except String M.Program) :=
  match opts.int8, calib with
  | true, some c => C.calibrated c prog
  | _, _ => some (.ok prog)

/-- The stages of `build` on the program of a model. -/
def compileStages (opts : BuildOptions) (dynamic : Bool) (prog : M.Program) :
    Except String M.Program := do
  let prog ← C.applyQuantization prog opts
  C.compile prog dynamic

/-- The program that `build` compiles. -/
def buildProgram (onnx : Bytes) (opts : BuildOptions) (calib : Option Calibration)
    (dyn : Option DynamicAxis) : Option (Except String M.Program) :=
  match C.parse onnx (freeDims dyn) with
  | .error what => some (.error what)
  | .ok prog => (C.int8Stage opts calib prog).map (· >>= C.compileStages opts dyn.isSome)

/-- `build`, from the model on. -/
def build (host : Host) (onnxNames : Bytes → List Bytes) (onnx : Bytes) (opts : BuildOptions)
    (calib : Option Calibration) (dyn : Option DynamicAxis) (files : TempFiles) :
    Option (Except String Bytes × TempFiles) := do
  let compiled ← C.buildProgram onnx opts calib dyn
  return Backend.build M ⟨C.introspectProgram onnx, fun _ => compiled⟩ host (onnxNames onnx) dyn
    files

/-- The parameters that a program has once it is compiled without offload copies. Quantization does
not change them. -/
structure Interface (interface : M.Program → List (Bytes × Shape)) : Prop where
  compile : ∀ prog compiled, C.compile prog false = .ok compiled →
    M.getParameterShapes compiled = interface prog
  int8 : ∀ prog args quantized, C.quantizeInt8 prog args = .ok quantized →
    interface quantized = interface prog
  fp16 : ∀ prog quantized, C.quantizeFp16 prog = .ok quantized →
    interface quantized = interface prog

section Listed

variable {C} {interface : M.Program → List (Bytes × Shape)} {onnxNames : Bytes → List Bytes}
  {onnx : Bytes} {opts : BuildOptions} {calib : Option Calibration} {dyn : Option DynamicAxis}

theorem bind_eq_ok {ε α β : Type} {x : Except ε α} {f : α → Except ε β} {b : β} :
    x >>= f = .ok b ↔ ∃ a, x = .ok a ∧ f a = .ok b := by
  cases x with
  | error what => exact ⟨nofun, fun ⟨_, h, _⟩ => absurd h nofun⟩
  | ok a => exact ⟨fun h => ⟨a, rfl, h⟩, fun ⟨_, h, hf⟩ => Except.ok.inj h ▸ hf⟩

theorem introspect_eq_ok {info : IOInfo} : C.introspect onnxNames onnx = .ok info ↔
    ∃ prog, C.introspectProgram onnx = .ok prog ∧
      splitIo (M.getParameterShapes prog) (onnxNames onnx) = some (info.inputs, info.outputs) := by
  rw [introspect, bind_eq_ok]
  refine exists_congr fun prog => and_congr_right fun _ => ?_
  rcases splitIo (M.getParameterShapes prog) (onnxNames onnx) with _ | ⟨inputs, outputs⟩
  · simp
  · constructor
    · rintro ⟨⟩
      rfl
    · rintro ⟨⟩
      rfl

/-- Calibration keeps the interface. -/
theorem interface_calibrated (hC : C.Interface interface) {c : Calibration}
    {prog quantized : M.Program} (h : C.calibrated c prog = some (.ok quantized)) :
    interface quantized = interface prog := by
  obtain ⟨⟨what | k, s⟩, -, hrest⟩ := Option.bind_eq_some_iff.mp h
  · exact absurd hrest (by simp)
  · simp only at hrest
    split at hrest
    · rw [← Except.ok.inj (Option.some.inj hrest)]
    · obtain ⟨args, -, hquantized⟩ := Option.bind_eq_some_iff.mp hrest
      exact hC.int8 _ _ _ (Option.some.inj hquantized)

/-- The stages before the compilation keep the interface. -/
theorem interface_int8Stage (hC : C.Interface interface) {prog quantized : M.Program}
    (h : C.int8Stage opts calib prog = some (.ok quantized)) :
    interface quantized = interface prog := by
  unfold int8Stage at h
  split at h
  next c _ => exact interface_calibrated hC h
  next => rw [← Except.ok.inj (Option.some.inj h)]

theorem parameters_compileStages (hC : C.Interface interface) {prog compiled : M.Program}
    (h : C.compileStages opts false prog = .ok compiled) :
    M.getParameterShapes compiled = interface prog := by
  obtain ⟨quantized, hquantized, hcompiled⟩ := bind_eq_ok.mp h
  rw [hC.compile _ _ hcompiled]
  unfold applyQuantization at hquantized
  split at hquantized
  next => exact hC.fp16 _ _ hquantized
  next => rw [← Except.ok.inj hquantized]

/-- The program of a static build has the parameters of the program that `introspect` compiles. -/
theorem parameters_static (hC : C.Interface interface) {compiled introspected : M.Program}
    (hbuild : C.buildProgram onnx opts calib none = some (.ok compiled))
    (hintrospect : C.introspectProgram onnx = .ok introspected) :
    M.getParameterShapes compiled = M.getParameterShapes introspected := by
  obtain ⟨prog, hparse, hcompile⟩ := bind_eq_ok.mp hintrospect
  simp only [buildProgram, freeDims, hparse, Option.map_eq_some_iff] at hbuild
  obtain ⟨stage, hint8, hcompiled⟩ := hbuild
  obtain ⟨quantized, rfl, hcompiled⟩ := bind_eq_ok.mp hcompiled
  calc M.getParameterShapes compiled = interface quantized :=
        parameters_compileStages hC hcompiled
    _ = interface prog := interface_int8Stage hC hint8
    _ = M.getParameterShapes introspected := (hC.compile _ _ hcompile).symm

/-- The parts of a successful build. -/
theorem parts_of_build {c : Compile M} {host : Host} {names : List Bytes} {files files' : TempFiles}
    {blob : Bytes} (h : Backend.build M c host names dyn files = (.ok blob, files')) :
    ∃ prog listed ios mxr, c.compiled dyn = .ok prog ∧ c.listed dyn = .ok listed ∧
      buildIos dyn (M.getParameterShapes listed) names = some ios ∧
      programToBytes M host prog files = (.ok mxr, files') ∧ blob = packBlob ios mxr := by
  unfold Backend.build at h
  split at h
  next => exact absurd (Prod.mk.inj h).1 (by simp)
  next prog hprog =>
    split at h
    next => exact absurd (Prod.mk.inj h).1 (by simp)
    next listed hlisted =>
      split at h
      next => exact absurd (Prod.mk.inj h).1 (by simp)
      next ios hios =>
        split at h
        next => exact absurd (Prod.mk.inj h).1 (by simp)
        next mxr files hbytes =>
          obtain ⟨hblob, rfl⟩ := Prod.mk.inj h
          exact ⟨prog, listed, ios, mxr, hprog, hlisted, hios, hbytes, (Except.ok.inj hblob).symm⟩

/-- The blob of a build packs the program that was compiled with the tensors that `introspect`
reports, marked by the dynamic axis. -/
theorem build_introspect (hC : C.Interface interface) {host : Host} {files files' : TempFiles}
    {blob : Bytes} {info : IOInfo} (hintrospect : C.introspect onnxNames onnx = .ok info)
    (hbuild : C.build host onnxNames onnx opts calib dyn files = some (.ok blob, files')) :
    ∃ prog mxr, C.buildProgram onnx opts calib dyn = some (.ok prog) ∧
      programToBytes M host prog files = (.ok mxr, files') ∧
      blob = packBlob (info.listed dyn) mxr := by
  obtain ⟨introspected, hprogram, hsplit⟩ := introspect_eq_ok.mp hintrospect
  obtain ⟨compiled, hcompiled, hbuild⟩ := Option.bind_eq_some_iff.mp hbuild
  obtain ⟨prog, listed, ios, mxr, hprog, hlisted, hios, hbytes, rfl⟩ :=
    parts_of_build (Option.some.inj hbuild)
  obtain rfl : compiled = .ok prog := hprog
  have hshapes : M.getParameterShapes listed = M.getParameterShapes introspected := by
    cases dyn with
    | none =>
      obtain rfl : prog = listed := Except.ok.inj hlisted
      exact parameters_static hC hcompiled hprogram
    | some dyn =>
      change C.introspectProgram onnx = .ok listed at hlisted
      rw [Except.ok.inj (hlisted.symm.trans hprogram)]
  rw [buildIos_listed, hshapes, hsplit] at hios
  exact ⟨prog, mxr, hcompiled, hbytes, by rw [← Option.some.inj hios]⟩

end Listed

end Compiler

end TrtShim.Backend
