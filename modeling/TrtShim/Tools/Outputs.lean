import TrtShim.Tools.Runner

/-! # The files that the runner writes

The runner checks neither its allocations, nor its copies, nor its output streams. If
the allocations and the copies succeed, then what it writes for a static model is what
the model computes of the files that it was given; what the files hold in the end
depends on the disk and on the names of the outputs.
-/

namespace TrtShim.Tools

open Std Backend Shim

variable {M : Migraphx}

/-- A static engine whose tensors are densely packed and can be told apart by their names. -/
structure StaticEngine (M : Migraphx) (typeSize : Int32 → ℕ) (ps : ParameterSet)
    (onnxNames : List Bytes) (e : ShimEngine M) : Prop where
  packs : M.Packs typeSize
  sized : Sized M typeSize ps
  ios : buildIos none ps.entries onnxNames = some e.ios
  params : ((M.getParameterShapes e.engine.prog).map Prod.fst).Perm (ps.entries.map Prod.fst)
  zeroCopy : e.engine.zeroCopy = true
  positional : Positional e

/-- Every copy succeeds, and the buffers of the IO tensors are apart. -/
structure Gpu.Works (g : Gpu) (e : ShimEngine M) : Prop where
  copies : ∀ p n, g.copies p n = true
  apart : ∀ i < e.ios.length, ∀ j < e.ios.length, i ≠ j →
    Mem.Apart (slot g e i, (allocated e i).toNat) (slot g e j, (allocated e j).toNat)

/-- The inputs of a model, as the runner reads them from the files given. -/
def fileInputs (ins : Inputs) (given : List (Bytes × Bytes)) (ps : ParameterSet) :
    List (Bytes × Shape × Bytes) :=
  (inputsOf ps.params).map fun p =>
    (p.1, p.2, ((ins.readFile (fileFor given p.1)).getD []).take p.2.bytes.toNat)

section Static

variable {typeSize : Int32 → ℕ} {ps : ParameterSet} {onnxNames : List Bytes} {e : ShimEngine M}
  {g : Gpu} {ins : Inputs} {given : List (Bytes × Bytes)} {m : Mem} {b : Bound M} {i : ℕ}
  {io : IOTensor}

namespace StaticEngine

variable (h : StaticEngine M typeSize ps onnxNames e)
include h

theorem nodup : (e.ios.map fun io => io.name).Nodup := h.positional.nodup

theorem length_lt : e.ios.length < 2 ^ 31 := (positional_iff.mp h.positional).2.1

theorem ios_eq : e.ios = (inputsOf ps.params).map inputTensor ++
    ps.outputs.map (outputTensor onnxNames) := by
  have hios := h.ios
  rw [buildIos_static, Option.some.injEq] at hios
  exact hios.symm

theorem passes : ¬ e.getNbIOTensors < 0 ∧ e.getNbIOTensors.toNatClampNeg = e.ios.length := by
  have htoInt : e.getNbIOTensors.toInt = e.ios.length := Int32.toInt_ofNat_of_lt h.length_lt
  have hzero : (0 : Int32).toInt = 0 := rfl
  rw [Int32.lt_iff_toInt_lt, Int32.toNatClampNeg, htoInt, hzero, Int.toNat_natCast]
  exact ⟨by omega, rfl⟩

theorem nameAt_eq (hio : e.ios[i]? = some io) : nameAt e i = io.name := by
  have hzero := (positional_iff.mp h.positional).2.2 io (List.mem_of_getElem? hio)
  rw [nameAt, getIOTensorName_of_lt h.length_lt hio, cStr_eq_self.mpr hzero, Option.getD_some]

theorem mode_eq (hio : e.ios[i]? = some io) : e.getTensorIOMode (nameAt e i) =
    if io.dir = .kInput then .kINPUT else .kOUTPUT := by
  rw [h.nameAt_eq hio, ShimEngine.getTensorIOMode,
    tensorOf_of_nodup h.nodup (List.mem_of_getElem? hio)]

theorem bufferSize_eq {name : Bytes} {s : Shape} {dir : IODir} {p : Param} (hp : (p, s) ∈ ps.params)
    (hio : ioFromShape name s dir ∈ e.ios) : e.bufferSize name = s.bytes :=
  bufferSize_of_shape h.packs (h.sized.dense p s hp) (h.sized.rank p s hp) h.nodup hio

theorem ios_input {p : Bytes × Shape} (hp : (inputsOf ps.params)[i]? = some p) :
    e.ios[i]? = some (inputTensor p) := by
  have hi := (List.getElem?_eq_some_iff.mp hp).1
  rw [h.ios_eq, List.getElem?_append_left (by rwa [List.length_map]), List.getElem?_map, hp,
    Option.map_some]

theorem ios_output {q : ℕ × Shape} (hq : ps.outputs[i]? = some q) :
    e.ios[(inputsOf ps.params).length + i]? = some (outputTensor onnxNames q) := by
  rw [h.ios_eq, List.getElem?_append_right (by rw [List.length_map]; omega), List.length_map,
    Nat.add_sub_cancel_left, List.getElem?_map, hq, Option.map_some]

theorem length_ios : e.ios.length = (inputsOf ps.params).length + ps.outputs.length := by
  rw [h.ios_eq, List.length_append, List.length_map, List.length_map]

/-- A run that succeeds has found its outputs without a gap in their indices. -/
theorem outputs_range {hip : Hip} {devicePtrs : DevicePtrs} {concrete : ConcreteDims} {stream : Ptr}
    (hret : (e.engine.run hip devicePtrs concrete stream).returned = true) :
    ps.outputs.map Prod.fst = List.range ps.outputs.length := by
  have hcount := EngineImpl.length_outputs h.ios
  rw [EngineImpl.run, if_pos h.zeroCopy] at hret
  rw [EngineImpl.outputs_range_of_zeroCopy h.params hcount hret, hcount, ps.length_outputs]

end StaticEngine

theorem bufferSize_le_allocated :
    (e.bufferSize (nameAt e i)).toNat ≤ (allocated e i).toNat := by
  unfold allocated
  simp only
  split
  next hzero => rw [hzero]; decide
  next => exact Nat.le_refl _

/-- An upload stays in the buffer at its position. -/
theorem region_uploadAt {w : Ptr × Bytes} (hw : uploadAt g ins e given i = some w) :
    w.1 = slot g e i ∧ w.2.length ≤ (allocated e i).toNat := by
  rw [uploadAt, Option.ite_none_right_eq_some, Option.map_eq_some_iff] at hw
  obtain ⟨-, raw, -, rfl⟩ := hw
  refine ⟨rfl, Nat.le_trans ?_ bufferSize_le_allocated⟩
  rw [List.length_take]
  exact Nat.min_le_left _ _

section Works

theorem uploads_apart (hg : g.Works e) :
    ((List.range e.ios.length).filterMap (uploadAt g ins e given)).Pairwise fun w w' =>
      Mem.Apart (Mem.region w) (Mem.region w') := by
  have hrange : (List.range e.ios.length).Pairwise fun i j =>
      i < e.ios.length ∧ j < e.ios.length ∧ i ≠ j := by
    refine List.pairwise_lt_range.imp_of_mem fun hi hj hlt => ?_
    exact ⟨List.mem_range.mp hi, List.mem_range.mp hj, Nat.ne_of_lt hlt⟩
  refine List.Pairwise.filterMap _ ?_ hrange
  rintro i j ⟨hi, hj, hne⟩ w hw w' hw'
  obtain ⟨hptr, hlen⟩ := region_uploadAt hw
  obtain ⟨hptr', hlen'⟩ := region_uploadAt hw'
  rw [Mem.region, Mem.region, hptr, hptr']
  exact (hg.apart i hi j hj hne).mono hlen hlen'

variable (hg : g.Works e) (hl : Looped g ins e given m e.ios.length b)
include hg hl

theorem mem_eq : b.mem =
    m.writeAll ((List.range e.ios.length).filterMap (uploadAt g ins e given)) := by
  have hupload : (fun (m : Mem) (w : Ptr × Bytes) => g.upload m w.1 w.2) =
      fun m w => m.write w.1 w.2 := by
    funext m w
    exact if_pos (hg.copies _ _)
  rw [hl.mem, hupload]
  rfl

/-- What was copied to a buffer is still there after the loop. -/
theorem read_upload {w : Ptr × Bytes} (hi : i < e.ios.length)
    (hw : uploadAt g ins e given i = some w) : b.mem.read w.1 w.2.length = w.2 := by
  have hlen : w.2.length ≤ 2 ^ 64 :=
    Nat.le_trans (region_uploadAt hw).2 (Nat.le_of_lt (allocated e i).toNat_lt)
  rw [mem_eq hg hl]
  exact Mem.read_writeAll (uploads_apart hg)
    (List.mem_filterMap.mpr ⟨i, List.mem_range.mpr hi, hw⟩) hlen

end Works

/-- The map that `executeV2` makes of the buffers. -/
def devPtrs (e : ShimEngine M) (b : Bound M) : DevicePtrs :=
  bindingPtrs e.ios fun i => b.dev[i]?.getD 0

theorem dev_eq (hl : Looped g ins e given m e.ios.length b) (hi : i < e.ios.length) :
    b.dev[i]?.getD 0 = slot g e i := by
  rw [hl.dev, List.getElem?_map, List.getElem?_range hi, Option.map_some, Option.getD_some]

section Run

variable (h : StaticEngine M typeSize ps onnxNames e)
  (hl : Looped g ins e given m e.ios.length b)
include h hl

theorem devPtrs_eq (hio : e.ios[i]? = some io) : (devPtrs e b)[io.name]? = some (slot g e i) := by
  rw [devPtrs, bindingPtrs_of_nodup h.nodup _ hio,
    dev_eq hl (List.getElem?_eq_some_iff.mp hio).1]

/-- The run reads the files given for the inputs. -/
theorem read_callerInputs (hg : g.Works e)
    (hfiles : ∀ name s, (.input name, s) ∈ ps.params → ∀ raw,
      ins.readFile (fileFor given name) = some raw → s.bytes.toNat ≤ raw.length) :
    (e.engine.callerInputs (devPtrs e b) ∅).read b.mem = named (fileInputs ins given ps) := by
  rw [callerInputs_static h.sized h.ios h.params h.zeroCopy, fileInputs,
    ← congrFun List.filterMap_eq_map' (inputsOf ps.params)]
  congr 1
  refine List.filterMap_congr fun p hp => ?_
  obtain ⟨i, hi⟩ := List.getElem?_of_mem hp
  have hio : e.ios[i]? = some (inputTensor p) := h.ios_input hi
  have hlt := (List.getElem?_eq_some_iff.mp hio).1
  have hname : nameAt e i = p.1 := h.nameAt_eq hio
  have hmode : e.getTensorIOMode (nameAt e i) = .kINPUT := (h.mode_eq hio).trans (if_pos rfl)
  have hsize : e.bufferSize (nameAt e i) = p.2.bytes := by
    rw [hname]
    exact h.bufferSize_eq (mem_inputsOf.mp hp) (List.mem_of_getElem? hio)
  obtain ⟨raw, hraw⟩ := Option.isSome_iff_exists.mp (hl.read i hlt hmode)
  have hupload : uploadAt g ins e given i = some (slot g e i, raw.take p.2.bytes.toNat) := by
    rw [uploadAt, if_pos hmode, hraw, Option.map_some, hsize]
  have hlength : (raw.take p.2.bytes.toNat).length = p.2.bytes.toNat := by
    rw [hname] at hraw
    rw [List.length_take, Nat.min_eq_left (hfiles p.1 p.2 (mem_inputsOf.mp hp) raw hraw)]
  have hread := read_upload hg hl hlt hupload
  rw [hlength] at hread
  have hptr : (devPtrs e b)[p.1]? = some (slot g e i) := devPtrs_eq h hl hio
  rw [hptr, Option.map_some, hread, ← hname, hraw, Option.getD_some]

/-- A buffer that the run reads is the one at the position of an input. -/
theorem exists_of_mem_callerInputs {x : Bytes × Shape × Ptr}
    (hx : x ∈ e.engine.callerInputs (devPtrs e b) ∅) :
    ∃ i < (inputsOf ps.params).length, x.2.2 = slot g e i ∧
      x.2.1.bytes.toNat ≤ (allocated e i).toNat := by
  obtain ⟨p, hp, hx⟩ := List.mem_filterMap.mp hx
  split at hx
  · exact absurd hx (by simp)
  · next hout =>
    obtain ⟨ptr, hptr, rfl⟩ := Option.map_eq_some_iff.mp hx
    have hname : p.1 ∈ inputNames ps := by
      rw [← inputNames_eq_filter]
      refine List.mem_filter.mpr ⟨h.params.mem_iff.mp (List.mem_map_of_mem hp), ?_⟩
      rw [Bool.eq_false_iff.mpr hout]
      rfl
    obtain ⟨⟨name, s⟩, hs, hname⟩ := List.mem_map.mp hname
    obtain ⟨i, hi⟩ := List.getElem?_of_mem hs
    have hio : e.ios[i]? = some (inputTensor (name, s)) := h.ios_input hi
    have hslot : (devPtrs e b)[name]? = some (slot g e i) := devPtrs_eq h hl hio
    obtain rfl : name = p.1 := hname
    refine ⟨i, (List.getElem?_eq_some_iff.mp hi).1, Option.some.inj (hptr.symm.trans hslot), ?_⟩
    have hsize : e.bufferSize (nameAt e i) = s.bytes := by
      rw [h.nameAt_eq hio]
      exact h.bufferSize_eq (mem_inputsOf.mp hs) (List.mem_of_getElem? hio)
    have hshape : e.engine.usedShape ∅ p = s := by
      rw [EngineImpl.usedShape, if_pos h.zeroCopy]
      exact boundShape_static h.sized h.ios setsModel_empty (mem_inputsOf.mp hs)
    rw [hshape, ← hsize]
    exact bufferSize_le_allocated

/-- The buffers that the run writes are those at the positions of the outputs. -/
theorem ptrs_eq {ptrs : List Ptr} (hptrs : e.engine.callerOutputs (devPtrs e b) = some ptrs)
    (k : ℕ) : ptrs[k]? =
      (ps.outputs[k]?).map fun _ => slot g e ((inputsOf ps.params).length + k) := by
  rw [← EngineImpl.boundOutput_eq hptrs k, EngineImpl.boundOutput,
    EngineImpl.outputs_static h.ios, List.getElem?_map]
  rcases hq : ps.outputs[k]? with _ | q
  · rfl
  · exact devPtrs_eq h hl (h.ios_output hq)

/-- The outputs that the loop has found. -/
theorem outputs_eq : b.outputs = (List.range ps.outputs.length).map fun k =>
    (nameAt e ((inputsOf ps.params).length + k), (inputsOf ps.params).length + k) := by
  have hinput : ((List.range (inputsOf ps.params).length).filter fun i =>
      e.getTensorIOMode (nameAt e i) ≠ .kINPUT) = [] := by
    refine List.filter_eq_nil_iff.mpr fun i hi => ?_
    have hp := List.getElem?_eq_getElem (List.mem_range.mp hi)
    rw [h.mode_eq (h.ios_input hp)]
    simp [inputTensor, ioFromShape]
  have houtput : (((List.range ps.outputs.length).map ((inputsOf ps.params).length + ·)).filter
      fun i => e.getTensorIOMode (nameAt e i) ≠ .kINPUT) =
      (List.range ps.outputs.length).map ((inputsOf ps.params).length + ·) := by
    refine List.filter_eq_self.mpr (List.forall_mem_map.mpr fun k hk => ?_)
    have hq := List.getElem?_eq_getElem (List.mem_range.mp hk)
    rw [h.mode_eq (h.ios_output hq)]
    simp [outputTensor, ioFromShape, IODir.kOutput, IODir.kInput]
  rw [hl.outputs, h.length_ios, List.range_add, List.filter_append, hinput, houtput,
    List.nil_append, List.map_map]
  rfl

theorem lines_eq : b.outputs.flatMap (fun o => outLine e o.1) =
    ps.outputs.flatMap fun q => outLine e (realName onnxNames q.1) := by
  have hlines : b.outputs.map (fun o => outLine e o.1) =
      ps.outputs.map fun q => outLine e (realName onnxNames q.1) := by
    rw [outputs_eq h hl, List.map_map]
    ext k : 1
    rw [List.getElem?_map, List.getElem?_map]
    rcases hq : ps.outputs[k]? with _ | q
    · rw [List.getElem?_eq_none (by simpa using List.getElem?_eq_none_iff.mp hq)]
      rfl
    · rw [List.getElem?_range (List.getElem?_eq_some_iff.mp hq).1, Option.map_some,
        Option.map_some, Function.comp_apply, h.nameAt_eq (h.ios_output hq)]
      rfl
  rw [List.flatMap_def, List.flatMap_def, hlines]

variable {ptrs : List Ptr} {outs : List Bytes}
  (hptrs : e.engine.callerOutputs (devPtrs e b) = some ptrs)
  (houts : outs.map List.length = ps.outputs.map fun q => q.2.bytes.toNat)
include hptrs houts

/-- The write for an output fills a part of the buffer at its position. -/
theorem region_output {k : ℕ} {w : Ptr × Bytes} (hw : (ptrs.zip outs)[k]? = some w) :
    (inputsOf ps.params).length + k < e.ios.length ∧
      w.1 = slot g e ((inputsOf ps.params).length + k) ∧
      w.2.length ≤ (allocated e ((inputsOf ps.params).length + k)).toNat := by
  obtain ⟨hptr, hbytes⟩ := List.getElem?_zip_eq_some.mp hw
  rw [ptrs_eq h hl hptrs k, Option.map_eq_some_iff] at hptr
  obtain ⟨q, hq, hslot⟩ := hptr
  have hio := h.ios_output hq
  have hlength : some w.2.length = some q.2.bytes.toNat := by
    have hget := congrArg (fun l => l[k]?) houts
    simpa only [List.getElem?_map, hbytes, hq, Option.map_some] using hget
  have hsize : e.bufferSize (nameAt e ((inputsOf ps.params).length + k)) = q.2.bytes := by
    rw [h.nameAt_eq hio]
    exact h.bufferSize_eq (ps.mem_outputs.mp (List.mem_of_getElem? hq))
      (List.mem_of_getElem? hio)
  refine ⟨(List.getElem?_eq_some_iff.mp hio).1, hslot.symm, ?_⟩
  rw [Option.some.inj hlength, ← hsize]
  exact bufferSize_le_allocated

theorem separate_outputs (hg : g.Works e) :
    Separate (e.engine.callerInputs (devPtrs e b) ∅) (ptrs.zip outs) where
  fits w hw := by
    obtain ⟨k, hk⟩ := List.getElem?_of_mem hw
    obtain ⟨-, -, hlen⟩ := region_output h hl hptrs houts hk
    exact Nat.le_trans hlen (Nat.le_of_lt (UInt64.toNat_lt _))
  outputs := by
    refine List.pairwise_iff_getElem.mpr fun j k hj hk hlt => ?_
    obtain ⟨hj', hptr, hlen⟩ := region_output h hl hptrs houts (List.getElem?_eq_getElem hj)
    obtain ⟨hk', hptr', hlen'⟩ := region_output h hl hptrs houts (List.getElem?_eq_getElem hk)
    rw [Mem.region, Mem.region, hptr, hptr']
    exact (hg.apart _ hj' _ hk' (by omega)).mono hlen hlen'
  inputs w hw x hx := by
    obtain ⟨k, hk⟩ := List.getElem?_of_mem hw
    obtain ⟨hk', hptr, hlen⟩ := region_output h hl hptrs houts hk
    obtain ⟨i, hi, hslot, hsize⟩ := exists_of_mem_callerInputs h hl hx
    rw [Mem.region, hptr, hslot]
    exact (hg.apart _ hk' _ (by omega) (by omega)).mono hlen hsize

end Run

section Succeeded

variable {D : Device M} {model : Model} (h : StaticEngine M typeSize ps onnxNames e)
  (hl : Looped g ins e given m e.ios.length b) (hbinds : D.Binds e.engine.prog model)
  (hg : g.Works e) (houts : (model (named (fileInputs ins given ps))).map List.length =
    ps.outputs.map fun q => q.2.bytes.toNat)
  (hfiles : ∀ name s, (.input name, s) ∈ ps.params → ∀ raw,
    ins.readFile (fileFor given name) = some raw → s.bytes.toNat ≤ raw.length)
  (hret : (e.engine.run (g.hip b.mem) (devPtrs e b) ∅ 0).returned = true)
include h hl hbinds hg houts hfiles hret

/-- What is downloaded after a run that has succeeded. -/
theorem download_output {k : ℕ} {q : ℕ × Shape} {bytes : Bytes} (hq : ps.outputs[k]? = some q)
    (hbytes : (model (named (fileInputs ins given ps)))[k]? = some bytes) :
    g.download (D.effect e.engine.prog (e.engine.run (g.hip b.mem) (devPtrs e b) ∅ 0) b.mem)
      (slot g e ((inputsOf ps.params).length + k)) q.2.bytes = bytes := by
  have hprog : D.Computes ps e.engine model := by
    rw [Device.Computes, if_pos h.zeroCopy]
    exact ⟨hbinds, h.params⟩
  have hreads : (g.hip b.mem).Reads b.mem := fun p size bytes hread =>
    (Option.some.inj (Option.ite_none_right_eq_some.mp hread).2).symm
  obtain ⟨ptrs, hptrs, heffect⟩ := run_eq_infer h.ios hprog hreads hret
  have hinputs := read_callerInputs h hl hg hfiles
  have hsep := separate_outputs h hl hptrs houts hg
  simp only [hinputs] at heffect
  have hptr : ptrs[k]? = some (slot g e ((inputsOf ps.params).length + k)) := by
    rw [ptrs_eq h hl hptrs k, hq, Option.map_some]
  have hlength : bytes.length = q.2.bytes.toNat := by
    have hget := congrArg (fun l => l[k]?) houts
    simp only [List.getElem?_map, hbytes, hq, Option.map_some] at hget
    exact Option.some.inj hget
  have hmem : (slot g e ((inputsOf ps.params).length + k), bytes) ∈
      ptrs.zip (model (named (fileInputs ins given ps))) :=
    List.mem_of_getElem? (List.getElem?_zip_eq_some.mpr ⟨hptr, hbytes⟩)
  have hwritten := Mem.read_writeAll (m := b.mem) hsep.outputs hmem (hsep.fits _ hmem)
  rw [Gpu.download, if_pos (hg.copies _ _), heffect hsep, ← hlength, infer, hinputs]
  exact hwritten

/-- The files that are written after a run that has succeeded. -/
theorem written_eq (outdir : Bytes) :
    (b.outputs.map fun o => (outFile outdir o.1, g.download
      (D.effect e.engine.prog (e.engine.run (g.hip b.mem) (devPtrs e b) ∅ 0) b.mem)
      (b.dev[o.2]?.getD 0) (e.bufferSize o.1))) =
      (ps.outputs.zip (model (named (fileInputs ins given ps)))).map fun r =>
        (outFile outdir (realName onnxNames r.1.1), r.2) := by
  rw [outputs_eq h hl, List.map_map]
  ext k : 1
  rw [List.getElem?_map, List.getElem?_map]
  rcases hq : ps.outputs[k]? with _ | q
  · have hlength := List.getElem?_eq_none_iff.mp hq
    rw [List.getElem?_eq_none (by simpa using hlength),
      List.getElem?_eq_none (by rw [List.length_zip]; omega)]
    rfl
  · have hio := h.ios_output hq
    have hcount : (model (named (fileInputs ins given ps))).length = ps.outputs.length := by
      simpa only [List.length_map] using congrArg List.length houts
    have hk := (List.getElem?_eq_some_iff.mp hq).1
    obtain ⟨bytes, hbytes⟩ : ∃ bytes, (model (named (fileInputs ins given ps)))[k]? = some bytes :=
      ⟨_, List.getElem?_eq_getElem (hcount.symm ▸ hk)⟩
    have hzip : (ps.outputs.zip (model (named (fileInputs ins given ps))))[k]? =
        some (q, bytes) := List.getElem?_zip_eq_some.mpr ⟨hq, hbytes⟩
    have hname : nameAt e ((inputsOf ps.params).length + k) = realName onnxNames q.1 :=
      h.nameAt_eq hio
    have hsize : e.bufferSize (realName onnxNames q.1) = q.2.bytes :=
      h.bufferSize_eq (ps.mem_outputs.mp (List.mem_of_getElem? hq)) (List.mem_of_getElem? hio)
    rw [List.getElem?_range hk, hzip, Option.map_some,
      Option.map_some, Function.comp_apply, hname, hsize,
      dev_eq hl (List.getElem?_eq_some_iff.mp hio).1,
      download_output h hl hbinds hg houts hfiles hret hq hbytes]

end Succeeded

/-- If the runner of a static engine exits with code zero, the GPU works, and the files given hold
enough bytes for their inputs, then the indices of the outputs have no gap, and for every output, in
their order, the runner has printed a line and written to a file what the model computes of the
files given for its inputs. -/
theorem inferEngine_writes (M : Migraphx) (typeSize : Int32 → ℕ) (ps : ParameterSet)
    (onnxNames : List Bytes) (e : ShimEngine M) (D : Device M) (model : Model) (g : Gpu)
    (ins : Inputs) (disk : Disk) (given : List (Bytes × Bytes)) (outdir : Bytes) (m : Mem)
    (h : StaticEngine M typeSize ps onnxNames e) (hbinds : D.Binds e.engine.prog model)
    (hg : g.Works e)
    (houts : (model (named (fileInputs ins given ps))).map List.length =
      ps.outputs.map fun q => q.2.bytes.toNat)
    (hfiles : ∀ name s, (.input name, s) ∈ ps.params → ∀ raw,
      ins.readFile (fileFor given name) = some raw → s.bytes.toNat ≤ raw.length)
    (hcode : (inferEngine g ins disk e given D outdir m).code = 0) :
    ps.outputs.map Prod.fst = List.range ps.outputs.length ∧
    inferEngine g ins disk e given D outdir m = ⟨0,
      ps.outputs.flatMap fun q => outLine e (realName onnxNames q.1),
      OrderedMap.fill disk.saved (disk.stored
        ((ps.outputs.zip (model (named (fileInputs ins given ps)))).map fun r =>
          (outFile outdir (realName onnxNames r.1.1), r.2)))⟩ := by
  have hfailed : (1 : Int32) ≠ 0 := by decide
  unfold inferEngine at hcode ⊢
  rw [if_neg h.passes.1, h.passes.2] at hcode ⊢
  rcases hb : (List.range e.ios.length).foldlM (bindTensor g ins e given)
      ⟨e.createExecutionContext, m, [], []⟩ with _ | b
  · rw [hb] at hcode
    exact absurd hcode hfailed
  · have hl : Looped g ins e given m e.ios.length b := looped hb
    have hrun : b.context.executeV2 (g.hip b.mem) (fun i => b.dev[i]?.getD 0) =
        e.engine.run (g.hip b.mem) (devPtrs e b) ∅ 0 := by
      rw [ShimContext.executeV2, hl.engine, hl.shapes]
      rfl
    rw [hb] at hcode
    simp only [hrun] at hcode ⊢
    by_cases hret : (e.engine.run (g.hip b.mem) (devPtrs e b) ∅ 0).returned = true
    · rw [if_pos hret] at hcode ⊢
      refine ⟨h.outputs_range hret, ?_⟩
      rw [report_of_code hcode, written_eq h hl hbinds hg houts hfiles hret outdir,
        lines_eq h hl]
    · rw [if_neg hret] at hcode
      exact absurd hcode hfailed

end Static

end TrtShim.Tools
