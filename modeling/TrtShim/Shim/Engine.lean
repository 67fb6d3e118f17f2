import TrtShim.Backend.Load

/-! # The engine behind the TensorRT interface

An engine keeps the blob it was made of, so serializing it gives the blob back.
Contexts run the engine on buffers that are keyed by the names of the IO tensors.
-/

namespace TrtShim.Shim

open Backend

variable {M : Migraphx}

/-- The C string at the front of a `std::string`. -/
def cStr (s : Bytes) : Bytes := s.takeWhile (· ≠ 0)

structure ShimEngine (M : Migraphx) where
  engine : EngineImpl M
  blob : Buffer

namespace ShimEngine

variable (e : ShimEngine M)

def ios : List IOTensor := e.engine.ios

/-- `getNbIOTensors`. -/
def getNbIOTensors : Int32 := Int32.ofNat e.ios.length

/-- `getIOTensorName`. -/
def getIOTensorName (i : Int32) : Option Bytes :=
  if 0 ≤ i ∧ i < e.getNbIOTensors then (e.ios[i.toNatClampNeg]?).map fun io => cStr io.name
  else none

/-- The position of the IO tensor that `find` returns. -/
def find (name : Bytes) : Option ℕ := e.ios.findIdx? fun io => io.name = name

/-- `serialize`. -/
def serialize : Buffer := e.blob

end ShimEngine

/-- `deserializeCudaEngine`. -/
def deserializeCudaEngine (M : Migraphx) (host : Host) (blob : Buffer) (files : TempFiles) :
    Option (ShimEngine M) × TempFiles :=
  let loaded := load M host blob files
  (loaded.engine.map fun engine => ⟨engine, blob⟩, loaded.files)

structure ShimContext (M : Migraphx) where
  engine : EngineImpl M
  addrs : DevicePtrs := ∅
  shapes : ConcreteDims := ∅

/-- The map that `executeV2` makes of the caller's bindings. -/
def bindingPtrs (ios : List IOTensor) (bindings : ℕ → Ptr) : DevicePtrs :=
  OrderedMap.fill ∅ (ios.zipIdx.map fun p => (p.1.name, bindings p.2))

/-- `executeV2`. -/
def ShimContext.executeV2 (c : ShimContext M) (hip : Hip) (bindings : ℕ → Ptr) : Run :=
  c.engine.run hip (bindingPtrs c.engine.ios bindings) c.shapes 0

/-- Serialize an engine and deserialize it again, once on each host. -/
def ShimEngine.cycles (e : ShimEngine M) :
    List Host → TempFiles → Option (ShimEngine M) × TempFiles
  | [], files => (some e, files)
  | host :: hosts, files =>
    match deserializeCudaEngine M host e.serialize files with
    | (some e', files') => e'.cycles hosts files'
    | (none, files') => (none, files')

variable {host : Host} {b : Buffer} {ios : List IOTensor} {mxr : Bytes} {prog : M.Program}
  {files : TempFiles}

theorem deserialize_packBlob (hios : ∀ io ∈ ios, io.Encodable) (hlen : ios.length < 2 ^ 32)
    (hb : b.bytes = packBlob ios mxr) (hhost : host.Keeps mxr) (hload : M.load mxr = .ok prog) :
    deserializeCudaEngine M host b files = (some ⟨⟨prog, ios⟩, b⟩, files) := by
  obtain ⟨hengine, hfiles⟩ : (load M host b files).engine = some ⟨prog, ios⟩ ∧ _ :=
    load_packBlob hios hlen hb hhost hload
  rw [deserializeCudaEngine, hengine, hfiles]
  rfl

theorem cycles_packBlob (hios : ∀ io ∈ ios, io.Encodable) (hlen : ios.length < 2 ^ 32)
    (hb : b.bytes = packBlob ios mxr) (hload : M.load mxr = .ok prog) (hosts : List Host)
    (hhosts : ∀ host ∈ hosts, host.Keeps mxr) :
    ShimEngine.cycles ⟨⟨prog, ios⟩, b⟩ hosts files = (some ⟨⟨prog, ios⟩, b⟩, files) := by
  induction hosts with
  | nil => rfl
  | cons host hosts ih =>
    have hstep : deserializeCudaEngine M host b files = (some ⟨⟨prog, ios⟩, b⟩, files) :=
      deserialize_packBlob hios hlen hb (hhosts host List.mem_cons_self) hload
    rw [ShimEngine.cycles, ShimEngine.serialize, hstep]
    exact ih fun host' h => hhosts host' (List.mem_cons_of_mem _ h)

/-- Decoding a packed blob gives back the IO tensors and the program bytes. If MIGraphX and the
hosts keep the program through its file, then the engine made of the blob, and every engine made
by serializing and deserializing it, has these IO tensors, this program and this very blob. -/
theorem packBlob_roundtrip (ios : List IOTensor) (mxr : Bytes) (b : Buffer)
    (hios : ∀ io ∈ ios, io.Encodable) (hlen : ios.length < 2 ^ 32)
    (hb : b.bytes = packBlob ios mxr) :
    (decode b).1 = .accepted ios mxr ∧
    ∀ (M : Migraphx) (prog : M.Program) (host : Host) (hosts : List Host) (files : TempFiles),
      M.save prog = .ok mxr → M.load mxr = .ok prog → host.Keeps mxr →
      (∀ host ∈ hosts, host.Keeps mxr) →
      programToBytes M host prog files = (.ok mxr, files) ∧
      deserializeCudaEngine M host b files = (some ⟨⟨prog, ios⟩, b⟩, files) ∧
      ShimEngine.cycles ⟨⟨prog, ios⟩, b⟩ hosts files = (some ⟨⟨prog, ios⟩, b⟩, files) :=
  ⟨decode_packBlob hios hlen hb, fun _ _ _ hosts files hsave hload hhost hhosts =>
    ⟨programToBytes_eq hhost hsave files, deserialize_packBlob hios hlen hb hhost hload,
      cycles_packBlob hios hlen hb hload hosts hhosts⟩⟩

theorem packBlob_roundtrip_dynamic :
    let ios : List IOTensor := [⟨text "x", [-1, 3], 4, 4, .kInput⟩,
      ⟨[0, 255], [-1], 12, 8, .kOutput⟩]
    let b : Buffer := ⟨packBlob ios [77], by decide +kernel⟩
    let M := Migraphx.single [] []
    let e : ShimEngine M := ⟨⟨(), ios⟩, b⟩
    (decode b).1 = .accepted ios [77] ∧ e.cycles [.plain, .plain] [] = (some e, []) := by
  intro ios b M e
  have hkeeps : Host.plain.Keeps [77] := Host.plain_keeps (by decide)
  have h := packBlob_roundtrip ios [77] b (by decide +kernel) (by decide) rfl
  exact ⟨h.1, (h.2 M () .plain [.plain, .plain] [] rfl rfl hkeeps (by simpa using hkeeps)).2.2⟩

end TrtShim.Shim
