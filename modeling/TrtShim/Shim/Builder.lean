import TrtShim.Backend.Compiler
import TrtShim.Shim.Calibrator
import TrtShim.Shim.Session

/-! # From a session to an engine

A network shows the tensors of its model before it is built, and an engine shows
its IO tensors after it is deserialized. They are the same tensors, but for the
dynamic axis of the profile.
-/

namespace TrtShim.Shim

open Backend Objects

variable {M : Migraphx}

/-- A calibrator in a state, with the number of batches after which it is given up. -/
structure Calibrator where
  calibrator : IInt8Calibrator
  state : calibrator.State
  passes : ℕ

/-- The calibration source for a calibrator. -/
def Calibrator.source (c : Calibrator) (hip : Mem → Hip) (allocate : UInt64 → Option String) :
    Calibration :=
  ⟨ShimCalibSource c.calibrator hip allocate, c.state, c.passes⟩

/-- What a build needs of its surroundings: MIGraphX, the output names of models, temporary files,
copies from the device memory, the allocator, and the calibrators of the client. -/
structure Surroundings (M : Migraphx) where
  compiler : Compiler M
  onnxNames : Bytes → List Bytes
  host : Host
  hip : Mem → Hip
  allocate : UInt64 → Option String
  calibrators : Ptr → Calibrator

namespace Surroundings

variable (env : Surroundings M)

/-- The `introspect` that parsers call. -/
def introspect : Bytes → Except String IOInfo := env.compiler.introspect env.onnxNames

/-- The calibration that a request asks for. -/
def calibration (r : Request) : Option Calibration :=
  r.calibrator.map fun p => (env.calibrators p).source env.hip env.allocate

/-- `buildSerializedNetwork`. The contents of the host memory, or the text of an exception, which
is logged, and null is returned. No value stands for a calibration that does not end. -/
def buildSerializedNetwork (profiles : Ptr → ShimOptimizationProfile) (net : ShimNetwork)
    (cfg : ShimConfig) (files : TempFiles) : Option (Except String Bytes × TempFiles) :=
  let r := request profiles net cfg
  env.compiler.build env.host env.onnxNames r.onnx r.opts (env.calibration r) r.dyn files

end Surroundings

/-! ## The tensors shown -/

/-- The tensor that an IO tensor is shown as. -/
def shown (io : IOTensor) : ShimTensor := ⟨io.name, io.dims, io.datatype⟩

/-- The axis lies on an input. -/
def OnAxis (dyn : DynamicAxis) (t : ShimTensor) : Prop :=
  t.name = dyn.input ∧ 0 ≤ dyn.axis ∧ dyn.axis < Int32.ofNat t.dims.length

instance (dyn : DynamicAxis) (t : ShimTensor) : Decidable (OnAxis dyn t) := instDecidableAnd

/-- An input of a network in an engine: the axis is marked where it lies. -/
def inputIn (dyn : Option DynamicAxis) (t : ShimTensor) : ShimTensor :=
  match dyn with
  | none => t
  | some dyn =>
    if OnAxis dyn t then { t with dims := t.dims.set dyn.axis.toNatClampNeg (-1) } else t

/-- An output of a network in an engine: a dynamic engine marks its first axis. -/
def outputIn (dyn : Option DynamicAxis) (t : ShimTensor) : ShimTensor :=
  match dyn with
  | none => t
  | some _ => { t with dims := t.dims.set 0 (-1) }

section Tensors

variable {dyn : Option DynamicAxis} {ios : List IOTensor} {info : IOInfo}

theorem shown_listed (hin : ∀ io ∈ info.inputs, io.dir = .kInput)
    (hout : ∀ io ∈ info.outputs, io.dir = .kOutput) : (info.listed dyn).map shown =
      info.inputs.map (fun io => inputIn dyn (shown io)) ++
        info.outputs.map fun io => outputIn dyn (shown io) := by
  cases dyn with
  | none => exact List.map_append
  | some dyn =>
    rw [IOInfo.listed, List.map_append, List.map_append, List.map_map, List.map_map]
    congr 1
    · refine List.map_congr_left fun io hio => ?_
      rw [Function.comp_apply, markDynamic_input (hin io hio)]
      exact apply_ite shown ..
    · refine List.map_congr_left fun io hio => ?_
      rw [Function.comp_apply, markDynamic_output (hout io hio)]
      rfl

theorem dir_listed (hin : ∀ io ∈ info.inputs, io.dir = .kInput)
    (hout : ∀ io ∈ info.outputs, io.dir = .kOutput) : (info.listed dyn).map IOTensor.dir =
      List.replicate info.inputs.length .kInput ++ List.replicate info.outputs.length .kOutput := by
  have hdirs : (info.inputs ++ info.outputs).map IOTensor.dir =
      List.replicate info.inputs.length .kInput ++
        List.replicate info.outputs.length .kOutput := by
    rw [List.map_append]
    congr 1
    · exact List.map_eq_replicate_iff.mpr hin
    · exact List.map_eq_replicate_iff.mpr hout
  cases dyn with
  | none => exact hdirs
  | some dyn =>
    rw [IOInfo.listed, List.map_map, ← hdirs]
    exact List.map_congr_left fun io _ => markDynamic_dir dyn io

theorem encodable_markDynamic {dyn : DynamicAxis} {io : IOTensor} (h : io.Encodable) :
    (markDynamic dyn io).Encodable := by
  have hlength : (markDynamic dyn io).dims.length = io.dims.length := by
    simp only [markDynamic]
    split <;> split <;> simp
  have hother : (markDynamic dyn io).datatype = io.datatype ∧
      (markDynamic dyn io).bytesPerElem = io.bytesPerElem ∧
      (markDynamic dyn io).name = io.name := by
    simp only [markDynamic]
    split <;> split <;> exact ⟨rfl, rfl, rfl⟩
  obtain ⟨hdatatype, hbytes, hname⟩ := hother
  exact ⟨hdatatype ▸ h.1, hdatatype ▸ h.2, hbytes ▸ h.3, hname ▸ h.4, hlength ▸ h.5⟩

theorem encodable_listed (h : ∀ io ∈ info.inputs ++ info.outputs, io.Encodable) :
    ∀ io ∈ info.listed dyn, io.Encodable := by
  cases dyn with
  | none => exact h
  | some dyn => exact List.forall_mem_map.mpr fun io hio => encodable_markDynamic (h io hio)

theorem length_listed : (info.listed dyn).length = (info.inputs ++ info.outputs).length := by
  cases dyn with
  | none => rfl
  | some dyn => exact List.length_map _

end Tensors

section Engines

variable {C : Compiler M} {onnxNames : Bytes → List Bytes} {onnx : Bytes} {info : IOInfo}
  {introspect : Bytes → Except String IOInfo} {allocate : UInt64 → Bool} {s t : Session}
  {network : Ptr} {call : Call} {post : List ApiCall}

/-- The tensors that `introspect` reports have the directions of their lists. -/
theorem introspect_dir (h : C.introspect onnxNames onnx = .ok info) :
    (∀ io ∈ info.inputs, io.dir = .kInput) ∧ ∀ io ∈ info.outputs, io.dir = .kOutput := by
  obtain ⟨prog, -, hsplit⟩ := Compiler.introspect_eq_ok.mp h
  exact splitIo_dir hsplit

/-- A model that was parsed stays in its network while only other networks are called. -/
theorem captured_run
    (hparse : ((s.networks network).step introspect allocate call).1 = .returned true)
    (hrun : s.run introspect allocate (.network network (.call call) :: post) = some t)
    (hothers : ∀ e ∈ post.filterMap ApiCall.networkEvent, e.1 ≠ network) :
    (t.networks network).Captured introspect := by
  rw [Session.run, List.foldlM_cons] at hrun
  obtain ⟨u, hu, hrun⟩ := Option.bind_eq_some_iff.mp hrun
  have hparsed : u.networks network = ((s.networks network).step introspect allocate call).2 := by
    rw [Session.eq_perform hu]
    exact Function.update_self ..
  rw [Session.follows_networks.foldlM hrun, foldl_step_of_ne hothers, hparsed]
  exact step_captured introspect allocate _ call hparse

end Engines

/-- A client parses a model into a network, and then makes any calls that do not concern this
network, in any order. If a build with a configuration succeeds then, the engines deserialized from
its blob show the tensors of the network, its inputs before its outputs, marked by the dynamic axis
that the build requests. On hosts that keep files they run the very program that was compiled. -/
theorem engine_of_session (env : Surroundings M) (interface : M.Program → List (Bytes × Shape))
    (allocate : UInt64 → Bool) (s t : Session) (network config : Ptr) (call : Call)
    (post : List ApiCall) (files files' : TempFiles) (blob : Bytes)
    (hinterface : env.compiler.Interface interface)
    (hparse : ((s.networks network).step env.introspect allocate call).1 = .returned true)
    (hrun : s.run env.introspect allocate (.network network (.call call) :: post) = some t)
    (hothers : ∀ e ∈ post.filterMap ApiCall.networkEvent, e.1 ≠ network)
    (hencodable : ∀ info, env.introspect (t.networks network).onnx = .ok info →
      (info.inputs ++ info.outputs).length < 2 ^ 32 ∧
        ∀ io ∈ info.inputs ++ info.outputs, io.Encodable)
    (hbuild : env.buildSerializedNetwork t.profiles (t.networks network) (t.configs config) files =
      some (.ok blob, files')) :
    let net := t.networks network
    let r := t.request network config
    ∃ ios prog,
      ios.map shown = net.inputs.map (inputIn r.dyn) ++ net.outputs.map (outputIn r.dyn) ∧
      ios.map IOTensor.dir = List.replicate net.inputs.length .kInput ++
        List.replicate net.outputs.length .kOutput ∧
      env.compiler.buildProgram r.onnx r.opts (env.calibration r) r.dyn = some (.ok prog) ∧
      ∀ b : Buffer, b.bytes = blob → ∀ (host : Host) (files₁ : TempFiles),
        (∀ e files₂, deserializeCudaEngine M host b files₁ = (some e, files₂) → e.ios = ios) ∧
        ∀ content, M.save prog = .ok content → M.load content = .ok prog →
          env.host.Keeps content → host.Keeps content →
          deserializeCudaEngine M host b files₁ = (some ⟨⟨prog, ios⟩, b⟩, files₁) := by
  intro net r
  obtain ⟨info, hinfo, hnet⟩ := captured_run hparse hrun hothers
  obtain ⟨hlen, henc⟩ := hencodable info hinfo
  obtain ⟨hin, hout⟩ := introspect_dir hinfo
  obtain ⟨prog, mxr, hprog, hbytes, rfl⟩ := Compiler.build_introspect hinterface hinfo hbuild
  have hinputs : net.inputs = info.inputs.map shown := congrArg ShimNetwork.inputs hnet
  have houtputs : net.outputs = info.outputs.map shown := congrArg ShimNetwork.outputs hnet
  have hlisted : ∀ io ∈ info.listed r.dyn, io.Encodable := encodable_listed henc
  have hlength : (info.listed r.dyn).length < 2 ^ 32 := length_listed ▸ hlen
  refine ⟨info.listed r.dyn, prog, ?_, ?_, hprog, fun b hb host files₁ => ⟨?_, ?_⟩⟩
  · rw [shown_listed hin hout, hinputs, houtputs, List.map_map, List.map_map]
    rfl
  · rw [dir_listed hin hout, hinputs, houtputs, List.length_map, List.length_map]
  · intro e files₂ he
    obtain ⟨engine, hengine, rfl⟩ := Option.map_eq_some_iff.mp (Prod.mk.inj he).1
    exact ios_of_load_packBlob hlisted hlength hb hengine
  · intro content hsave hload hkeeps hkeeps'
    obtain rfl : content = mxr :=
      Except.ok.inj (Prod.mk.inj ((programToBytes_eq hkeeps hsave files).symm.trans hbytes)).1
    exact deserialize_packBlob hlisted hlength hb hkeeps' hload

/-- Surroundings in which every call succeeds, and every model has these parameters. -/
def Surroundings.single (params : List (Bytes × Shape)) :
    Surroundings (Migraphx.single params []) where
  compiler := ⟨fun _ _ => .ok (), fun _ _ => .ok (), fun _ => .ok (), fun _ _ => .ok ()⟩
  onnxNames _ := [text "y"]
  host := .plain
  hip := .ofMem
  allocate _ := none
  calibrators _ := ⟨.refilling 16, ([], []), 1⟩

/-- The profile gets its greatest dimension after it was added to the configuration. -/
theorem engine_of_session_dynamic :
    let params : List (Bytes × Shape) := [(text "x", floatPair), (text "main:#output_0", floatPair)]
    let env := Surroundings.single params
    let dims (d : Int64) (h : (toDims [d]).Valid) : ValidDims := ⟨toDims [d], h⟩
    let post : List ApiCall := [.profile 7 (.call ⟨text "x", .kMIN, dims 1 (by decide)⟩),
      .config 5 (.call (.addOptimizationProfile 7)), .network 2 (.call (.parse [])),
      .profile 7 (.call ⟨text "x", .kMAX, dims 4 (by decide)⟩)]
    let blob := packBlob [⟨text "x", [-1], 4, 4, .kInput⟩, ⟨text "y", [-1], 4, 4, .kOutput⟩] [77]
    ∃ t, Session.run env.introspect (fun _ => true) {} (.network 1 (.call (.parse [1])) :: post) =
        some t ∧
      env.buildSerializedNetwork t.profiles (t.networks 1) (t.configs 5) [] =
        some (.ok blob, []) ∧
      ∀ b : Buffer, b.bytes = blob → ∃ e,
        deserializeCudaEngine (.single params []) .plain b [] = (some e, []) ∧
        e.ios.map shown = [⟨text "x", [-1], 4⟩, ⟨text "y", [-1], 4⟩] := by
  intro params env dims post blob
  have hinfo : ∀ onnx, env.introspect onnx = .ok
      ⟨[⟨text "x", [2], 4, 4, .kInput⟩], [⟨text "y", [2], 4, 4, .kOutput⟩]⟩ := fun _ => by
    change env.introspect [] = _
    decide +kernel
  have hencodable : ∀ onnx info, env.introspect onnx = .ok info →
      (info.inputs ++ info.outputs).length < 2 ^ 32 ∧
        ∀ io ∈ info.inputs ++ info.outputs, io.Encodable := by
    intro onnx info h
    obtain rfl := Except.ok.inj ((hinfo onnx).symm.trans h)
    exact ⟨by decide, by decide +kernel⟩
  have hkeeps : Host.plain.Keeps [77] := Host.plain_keeps (by decide)
  let calls : List ApiCall := .network 1 (.call (.parse [1])) :: post
  let t : Session := calls.foldl (Session.perform env.introspect fun _ => true) {}
  have hbuild : env.buildSerializedNetwork t.profiles (t.networks 1) (t.configs 5) [] =
      some (.ok blob, []) := by decide +kernel
  obtain ⟨ios, prog, hshown, -, -, hengine⟩ := engine_of_session env (fun _ => params)
    (fun _ => true) {} t 1 5 (.parse [1]) post [] [] blob
    ⟨fun _ _ _ => rfl, fun _ _ _ _ => rfl, fun _ _ _ => rfl⟩ rfl rfl (by decide +kernel)
    (hencodable _) hbuild
  refine ⟨t, rfl, hbuild, fun b hb => ?_⟩
  exact ⟨_, (hengine b hb .plain []).2 [77] rfl rfl hkeeps hkeeps, hshown.trans (by decide +kernel)⟩

end TrtShim.Shim
