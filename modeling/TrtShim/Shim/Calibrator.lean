import TrtShim.Backend.Calibration
import TrtShim.Backend.Device
import TrtShim.Backend.Sizes
import TrtShim.Shim.Engine

/-! # Calibrators

The calibration source of the shim asks a calibrator for device buffers and copies
them to the host. A calibrator may fill the same buffer again for every batch, so
the copy of a batch is made before the next one is asked for. The quantization then
reads the batches that the calibrator served, in their order.
-/

namespace TrtShim.Shim

open Std Backend

/-- An implementation of `IInt8Calibrator`. `getBatch` gets the names of the inputs and their
number. It fills device memory and sets bindings, which are null before, or has no batch left. -/
structure IInt8Calibrator where
  State : Type
  /-- What the device memory holds while the calibrator is in a state. -/
  memory : State → Mem
  getBatch : List Bytes → Int32 → State → Option (ℕ → Ptr) × State

variable (cal : IInt8Calibrator) (hip : Mem → Hip) (allocate : UInt64 → Option String)

/-- The host buffer for an input: zeros, and the batch of the binding if it can be copied. -/
def hostBatch (hip : Hip) (bytes : UInt64) (binding : Ptr) : Bytes :=
  let copied := if binding ≠ 0 then hip.toHost binding bytes else none
  copied.getD (List.replicate bytes.toNat 0)

/-- The body of the loop of `ShimCalibSource::next`. An allocation may throw an exception, given by
its text. -/
def fillBatch (hip : Hip) (bindings : ℕ → Ptr) (batch : CalibrationData) (p : IOTensor × ℕ) :
    Except String CalibrationData :=
  match allocate p.1.bufferBytes with
  | some what => .error what
  | none => .ok (batch.insert p.1.name (hostBatch hip p.1.bufferBytes (bindings p.2)))

/-- `ShimCalibSource::next`. -/
def ShimCalibSource.next (inputs : List IOTensor) (s : cal.State) :
    Except String (Option CalibrationData) × cal.State :=
  let n := Int32.ofNat inputs.length
  if n < 0 then (.error "cannot create std::vector larger than max_size()", s)
  else
    let inputs := inputs.take n.toNatClampNeg
    match cal.getBatch (inputs.map fun io => cStr io.name) n s with
    | (none, s') => (.ok none, s')
    | (some bindings, s') =>
      ((inputs.zipIdx.foldlM (fillBatch allocate (hip (cal.memory s')) bindings) ∅).map some, s')

/-- `ShimCalibSource`. -/
def ShimCalibSource : CalibrationSource where
  State := cal.State
  next := ShimCalibSource.next cal hip allocate

/-! ## What a calibrator serves -/

/-- A batch that was served: its bindings, and the device memory at that time. -/
structure Batch where
  bindings : ℕ → Ptr
  memory : Mem

/-- A call of `getBatch` for the inputs of a model. -/
def IInt8Calibrator.serve (inputs : List IOTensor) (s : cal.State) :
    Except String (Option Batch) × cal.State :=
  let r := cal.getBatch (inputs.map fun io => cStr io.name) (Int32.ofNat inputs.length) s
  (.ok (r.1.map fun bindings => ⟨bindings, cal.memory r.2⟩), r.2)

/-- The host data of a batch. -/
def batchOf (inputs : List IOTensor) (b : Batch) : CalibrationData :=
  OrderedMap.fill ∅ (inputs.zipIdx.map fun p =>
    (p.1.name, hostBatch (hip b.memory) p.1.bufferBytes (b.bindings p.2)))

/-- The arguments for a batch: every parameter has what the binding at its position held when the
batch was served. -/
def boundBatch (params : List (Bytes × Shape)) (b : Batch) : ProgramParameters :=
  params.zipIdx.map fun p =>
    (p.1.1, ⟨p.1.2, .host (hostBatch (hip b.memory) p.1.2.bytes (b.bindings p.2))⟩)

/-- What the calibration loop keeps of some batches. -/
def keptBatches (M : Migraphx) (inputs : List IOTensor) (bs : List Batch) : Kept :=
  (bs.map (batchOf hip inputs)).foldl (keep M inputs) {}

section Next

variable {cal hip allocate} {M : Migraphx} {inputs : List IOTensor} {s t : cal.State}

theorem foldlM_fillBatch {hip : Hip} {bindings : ℕ → Ptr} {l : List (IOTensor × ℕ)}
    (h : ∀ p ∈ l, allocate p.1.bufferBytes = none) (batch : CalibrationData) :
    l.foldlM (fillBatch allocate hip bindings) batch =
      .ok (OrderedMap.fill batch (l.map fun p =>
        (p.1.name, hostBatch hip p.1.bufferBytes (bindings p.2)))) := by
  induction l generalizing batch with
  | nil => rfl
  | cons p l ih =>
    rw [List.forall_mem_cons] at h
    rw [List.foldlM_cons, fillBatch, h.1]
    exact ih h.2 _

/-- The source hands on the batches that the calibrator serves. -/
theorem next_eq (hlen : inputs.length < 2 ^ 31)
    (halloc : ∀ io ∈ inputs, allocate io.bufferBytes = none) (s : cal.State) :
    ShimCalibSource.next cal hip allocate inputs s =
      (((cal.serve inputs s).1).map fun b => b.map (batchOf hip inputs),
        (cal.serve inputs s).2) := by
  have htoInt : (Int32.ofNat inputs.length).toInt = inputs.length := Int32.toInt_ofNat_of_lt hlen
  have hnn : ¬ Int32.ofNat inputs.length < 0 := by
    have hzero : (0 : Int32).toInt = 0 := rfl
    rw [Int32.lt_iff_toInt_lt, htoInt, hzero]
    omega
  have htake : inputs.take (Int32.ofNat inputs.length).toNatClampNeg = inputs := by
    rw [Int32.toNatClampNeg, htoInt, Int.toNat_natCast, List.take_length]
  have hzip : ∀ p ∈ inputs.zipIdx, allocate p.1.bufferBytes = none := fun p hp =>
    halloc _ (List.fst_mem_of_mem_zipIdx hp)
  simp only [ShimCalibSource.next, hnn, if_false, htake, IInt8Calibrator.serve]
  generalize cal.getBatch (inputs.map fun io => cStr io.name) (Int32.ofNat inputs.length) s = r
  obtain ⟨_ | bindings, s'⟩ := r
  · rfl
  · simp only [foldlM_fillBatch hzip]
    rfl

/-- The loop keeps the batches that the calibrator serves until it has none left. -/
theorem calibrate_eq (hlen : inputs.length < 2 ^ 31)
    (halloc : ∀ io ∈ inputs, allocate io.bufferBytes = none) (passes : ℕ) (s : cal.State) :
    calibrate M (ShimCalibSource cal hip allocate) inputs passes s =
      Drain.drain (cal.serve inputs) (fun k b => keep M inputs k (batchOf hip inputs b)) passes s
        {} :=
  Drain.drain_map (next_eq hlen halloc)

variable {typeSize : Int32 → ℕ} {params : List (Bytes × Shape)}

/-- What the quantization reads of a batch. -/
theorem batchArguments_batchOf (hM : M.Packs typeSize)
    (hdense : ∀ p ∈ params, p.2.Dense M typeSize) (hnodup : (params.map Prod.fst).Nodup)
    (b : Batch) : batchArguments M (params.map inputTensor)
      (batchOf hip (params.map inputTensor) b) = boundBatch hip params b := by
  have hzip : (params.map inputTensor).zipIdx = params.zipIdx.map fun p => (inputTensor p.1, p.2) :=
    List.zipIdx_map ..
  have hbytes : ∀ p ∈ params.zipIdx, (inputTensor p.1).bufferBytes = p.1.2.bytes := fun p hp =>
    (hdense _ (List.fst_mem_of_mem_zipIdx hp)).bufferBytes_eq hM _ _
  have hbatch : batchOf hip (params.map inputTensor) b = OrderedMap.fill ∅ (params.zipIdx.map
      fun p => (p.1.1, hostBatch (hip b.memory) p.1.2.bytes (b.bindings p.2))) := by
    rw [batchOf, hzip, List.map_map]
    refine congrArg _ (List.map_congr_left fun p hp => ?_)
    rw [Function.comp_apply, hbytes p hp]
    rfl
  have hkeys : ((params.zipIdx.map fun p =>
      (p.1.1, hostBatch (hip b.memory) p.1.2.bytes (b.bindings p.2))).map Prod.fst).Nodup := by
    have hfst : (params.zipIdx.map fun p => p.1.1) = params.map Prod.fst := by
      conv_rhs => rw [← List.zipIdx_map_fst 0 params, List.map_map]
      rfl
    rw [List.map_map]
    exact hfst ▸ hnodup
  have hpairs : params.zipIdx.map Prod.fst = params := List.zipIdx_map_fst 0 params
  have hleft (cd : CalibrationData) : batchArguments M (params.map inputTensor) cd =
      params.zipIdx.filterMap fun p => (cd[p.1.1]?).map fun bytes =>
        (p.1.1, ⟨inputShape M (inputTensor p.1), .host bytes⟩) := by
    rw [batchArguments, List.filterMap_map]
    conv_lhs => rw [← hpairs, List.filterMap_map]
    rfl
  have hright : boundBatch hip params b = params.zipIdx.filterMap fun p =>
      some (p.1.1, ⟨p.1.2, .host (hostBatch (hip b.memory) p.1.2.bytes (b.bindings p.2))⟩) :=
    (congrFun List.filterMap_eq_map' _).symm
  rw [hleft, hright]
  refine List.filterMap_congr fun p hp => ?_
  have hget : (batchOf hip (params.map inputTensor) b)[p.1.1]? =
      some (hostBatch (hip b.memory) p.1.2.bytes (b.bindings p.2)) := by
    rw [hbatch]
    exact OrderedMap.getElem?_fill_of_mem hkeys (List.mem_map.mpr ⟨p, hp, rfl⟩) _
  have hshape : inputShape M (inputTensor p.1) = p.1.2 := by
    have hlengths : (inputTensor p.1).dims.map Int64.toUInt64 = p.1.2.lengths := by
      rw [inputTensor, ioFromShape, List.map_map]
      exact List.map_id _
    rw [inputShape, hlengths]
    exact (hdense _ (List.fst_mem_of_mem_zipIdx hp)).packed
  rw [hget, Option.map_some, hshape]

theorem arguments_keptBatches (hM : M.Packs typeSize)
    (hdense : ∀ p ∈ params, p.2.Dense M typeSize) (hnodup : (params.map Prod.fst).Nodup)
    (bs : List Batch) :
    (keptBatches hip M (params.map inputTensor) bs).arguments =
      some (bs.map (boundBatch hip params)) := by
  rw [keptBatches, arguments_foldl_keep, List.map_map]
  exact congrArg some (List.map_congr_left fun b _ => batchArguments_batchOf hM hdense hnodup b)

/-- A host buffer has as many bytes as were asked for. They are those in the device memory if they
were copied. -/
theorem hostBatch_spec {hip : Hip} {m : Mem} (hhip : hip.Reads m) (size : UInt64) (binding : Ptr) :
    (hostBatch hip size binding).length = size.toNat ∧
      (binding ≠ 0 → hip.toHost binding size ≠ none →
        hostBatch hip size binding = m.read binding size.toNat) := by
  rw [hostBatch]
  split
  next hbinding =>
    rcases hcopy : hip.toHost binding size with _ | bytes
    · exact ⟨List.length_replicate, fun _ h => absurd rfl h⟩
    · obtain rfl := hhip _ _ _ hcopy
      exact ⟨Mem.length_read .., fun _ _ => rfl⟩
  next hbinding => exact ⟨List.length_replicate, fun h => absurd h hbinding⟩

theorem getElem?_boundBatch {i : ℕ} {p : Bytes × Shape} (hp : params[i]? = some p) (b : Batch) :
    (boundBatch hip params b)[i]? =
      some (p.1, ⟨p.2, .host (hostBatch (hip b.memory) p.2.bytes (b.bindings i))⟩) := by
  rw [boundBatch, List.getElem?_map, List.getElem?_zipIdx, hp]
  simp

end Next

/-- For a program with fewer than `2 ^ 31` densely packed parameters of distinct names, whose host
buffers can be allocated, the calibration loop ends exactly if the calibrator has at some time no
batch left. The quantization then reads the batches served before, in their order. Each parameter
has as many bytes as its shape, and if the binding at its position was copied, they are those that
the device memory held there when the batch was served, whatever the calibrator has written to it
since. -/
theorem calibrate_serves (M : Migraphx) (typeSize : Int32 → ℕ) (cal : IInt8Calibrator)
    (hip : Mem → Hip) (allocate : UInt64 → Option String) (params : List (Bytes × Shape))
    (s : cal.State)
    (hM : M.Packs typeSize) (hdense : ∀ p ∈ params, p.2.Dense M typeSize)
    (hnodup : (params.map Prod.fst).Nodup) (hlen : params.length < 2 ^ 31)
    (hhip : ∀ m, (hip m).Reads m) (halloc : ∀ p ∈ params, allocate p.2.bytes = none) :
    let inputs := params.map inputTensor
    let loop (passes : ℕ) : Option (Except String Kept × cal.State) :=
      calibrate M (ShimCalibSource cal hip allocate) inputs passes s
    (∀ passes k s', loop passes = some (.ok k, s') ↔
      ∃ bs t, Drain.Yields (cal.serve inputs) s bs t ∧ cal.serve inputs t = (.ok none, s') ∧
        bs.length < passes ∧ k = keptBatches hip M inputs bs) ∧
    (∀ passes, loop passes = none ↔
      ∃ bs t, Drain.Yields (cal.serve inputs) s bs t ∧ bs.length = passes) ∧
    ∀ bs, (keptBatches hip M inputs bs).arguments = some (bs.map (boundBatch hip params)) ∧
      ∀ b ∈ bs, ∀ (i : ℕ) p, params[i]? = some p → ∃ bytes,
        (boundBatch hip params b)[i]? = some (p.1, ⟨p.2, .host bytes⟩) ∧
          bytes.length = p.2.bytes.toNat ∧
          (b.bindings i ≠ 0 → (hip b.memory).toHost (b.bindings i) p.2.bytes ≠ none →
            bytes = b.memory.read (b.bindings i) p.2.bytes.toNat) := by
  intro inputs loop
  have hbytes : ∀ io ∈ inputs, allocate io.bufferBytes = none := by
    refine List.forall_mem_map.mpr fun p hp => ?_
    rw [inputTensor, (hdense p hp).bufferBytes_eq hM]
    exact halloc p hp
  have hlength : inputs.length < 2 ^ 31 := by rwa [List.length_map]
  have hloop (passes : ℕ) : loop passes = Drain.drain (cal.serve inputs)
      (fun k b => keep M inputs k (batchOf hip inputs b)) passes s {} :=
    calibrate_eq hlength hbytes passes s
  refine ⟨fun passes k s' => ?_, fun passes => ?_, fun bs => ⟨?_, ?_⟩⟩
  · rw [hloop, Drain.drain_eq_some_iff]
    constructor
    · rintro ⟨bs, t, what | _, hyields, hlt, hstop, hk⟩
      · exact absurd hk (by simp [Except.map])
      · obtain rfl := Except.ok.inj hk
        refine ⟨bs, t, hyields, hstop, hlt, ?_⟩
        rw [keptBatches, List.foldl_map]
    · rintro ⟨bs, t, hyields, hstop, hlt, rfl⟩
      refine ⟨bs, t, .ok (), hyields, hlt, hstop, ?_⟩
      rw [keptBatches, List.foldl_map]
      rfl
  · rw [hloop, Drain.drain_eq_none_iff]
  · exact arguments_keptBatches hM hdense hnodup bs
  · intro b _ i p hp
    exact ⟨_, getElem?_boundBatch hp b, hostBatch_spec (hhip b.memory) _ _⟩

/-- A calibrator that copies every batch to the same buffer. -/
def IInt8Calibrator.refilling (buffer : Ptr) : IInt8Calibrator where
  State := List Bytes × Bytes
  memory s := .ofBytes buffer s.2
  getBatch _ _
    | ([], last) => (none, ([], last))
    | (batch :: batches, _) => (some fun _ => buffer, (batches, batch))

theorem calibrate_serves_refilled :
    let M := Migraphx.single [] []
    let params := [(text "x", floatPair)]
    let cal := IInt8Calibrator.refilling 16
    let batches : List Bytes := [[1, 2, 3, 4, 5, 6, 7, 8], [8, 7, 6, 5, 4, 3, 2, 1]]
    ∃ k s', calibrate M (ShimCalibSource cal .ofMem fun _ => none) (params.map inputTensor) 3
        (batches, []) = some (.ok k, s') ∧
      k.arguments = some (batches.map fun bytes => [(text "x", ⟨floatPair, .host bytes⟩)]) := by
  intro M params cal batches
  let inputs := params.map inputTensor
  let s : cal.State := (batches, [])
  have hM : M.Packs fun _ => 4 := packs_of_prod fun _ _ => rfl
  have hdense : ∀ p ∈ params, p.2.Dense M fun _ => 4 :=
    List.forall_mem_singleton.mpr ⟨by decide, by decide⟩
  have hhip : ∀ m, (Hip.ofMem m).Reads m := fun _ _ _ _ h => (Option.some.inj h).symm
  obtain ⟨hends, -, hargs⟩ := calibrate_serves M (fun _ => 4) cal .ofMem (fun _ => none) params s
    hM hdense (List.nodup_singleton _) (Nat.one_lt_two_pow (by decide)) hhip (fun _ _ => rfl)
  have hyields : Drain.Yields (cal.serve inputs) s
      (batches.map fun bytes => ⟨fun _ => 16, .ofBytes 16 bytes⟩) ([], batches[1]) :=
    .cons rfl (.cons rfl (.nil _))
  refine ⟨_, _, (hends 3 _ _).mpr ⟨_, _, hyields, rfl, Nat.lt_succ_self 2, rfl⟩, ?_⟩
  rw [(hargs _).1]
  rfl

end TrtShim.Shim
