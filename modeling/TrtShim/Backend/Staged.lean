import TrtShim.Backend.ZeroCopy

/-! # The staged path

The outputs of a dynamic engine come from a static program that names them by
index, and their data from a dynamic program that returns results by position.
A run pairs the two by counting, so it delivers every result to its output
exactly when no index is missing.
-/

namespace TrtShim.Backend

open Std

variable {M : Migraphx}

@[simp] theorem markDynamic_name (dyn : DynamicAxis) (io : IOTensor) :
    (markDynamic dyn io).name = io.name := by
  simp only [markDynamic]
  split <;> split <;> rfl

@[simp] theorem markDynamic_dir (dyn : DynamicAxis) (io : IOTensor) :
    (markDynamic dyn io).dir = io.dir := by
  simp only [markDynamic]
  split <;> split <;> rfl

namespace EngineImpl

variable {e : EngineImpl M}

/-- The outputs of a dynamic engine, in the order of their indices. -/
theorem outputs_dynamic {ps : ParameterSet} {onnxNames : List Bytes} {dyn : DynamicAxis}
    (hios : buildIos (some dyn) ps.entries onnxNames = some e.ios) :
    e.outputs = ps.outputs.map fun p => markDynamic dyn (outputTensor onnxNames p) := by
  simp only [buildIos, ps.splitIo_entries, Option.bind_eq_bind, Option.bind_some,
    Option.pure_def, Option.some.injEq, List.map_append, List.map_map] at hios
  refine outputs_of_append hios.symm ?_ ?_
  · exact List.forall_mem_map.mpr fun p _ => markDynamic_dir dyn (inputTensor p)
  · exact List.forall_mem_map.mpr fun p _ => markDynamic_dir dyn (outputTensor onnxNames p)

variable {hip : Hip} {devicePtrs : DevicePtrs} {results : List Argument}

theorem deliver_cons {oi : ℕ} {out : IOTensor} {outs : List IOTensor} {copies : List Copy}
    (h : deliver hip devicePtrs results oi (out :: outs) = (true, copies)) :
    ∃ arg dst copies', results[oi]? = some arg ∧ devicePtrs[out.name]? = some dst ∧
      deliver hip devicePtrs results (oi + 1) outs = (true, copies') ∧
      copies = ⟨dst, oi, arg⟩ :: copies' := by
  unfold deliver at h
  split at h
  next arg dst harg hdst =>
    split at h
    · obtain ⟨hr, rfl⟩ := Prod.mk.inj h
      exact ⟨arg, dst, _, harg, hdst, Prod.ext hr rfl, rfl⟩
    · exact absurd (Prod.mk.inj h).1 (by decide)
  next => exact absurd (Prod.mk.inj h).1 (by decide)

/-- The copies of a loop that went through: every output was paired with the result at the
counter. -/
theorem mem_deliver {oi : ℕ} {outs : List IOTensor} {copies : List Copy}
    (h : deliver hip devicePtrs results oi outs = (true, copies)) (c : Copy) :
    c ∈ copies ↔ ∃ j out, outs[j]? = some out ∧ c.oi = oi + j ∧
      devicePtrs[out.name]? = some c.dst ∧ results[c.oi]? = some c.arg := by
  induction outs generalizing oi copies with
  | nil =>
    obtain rfl : copies = [] := (Prod.mk.inj h).2.symm
    simp
  | cons out outs ih =>
    obtain ⟨arg, dst, copies', harg, hdst, hrest, rfl⟩ := deliver_cons h
    rw [List.mem_cons, ih hrest]
    constructor
    · rintro (rfl | ⟨j, out', hout, hoi, hc⟩)
      · exact ⟨0, out, rfl, rfl, hdst, harg⟩
      · exact ⟨j + 1, out', hout, by omega, hc⟩
    · rintro ⟨_ | j, out', hout, hoi, hptr, hres⟩
      · left
        obtain rfl := Option.some.inj hout
        obtain ⟨dst', oi', arg'⟩ := c
        obtain rfl : oi' = oi := hoi
        rw [hdst, Option.some.injEq] at hptr
        rw [harg, Option.some.injEq] at hres
        rw [hptr, hres]
      · exact .inr ⟨j, out', hout, by omega, hptr, hres⟩

/-- A loop that went through found a result and a buffer for every output. -/
theorem found_of_deliver {oi : ℕ} {outs : List IOTensor} {copies : List Copy}
    (h : deliver hip devicePtrs results oi outs = (true, copies)) {j : ℕ} {out : IOTensor}
    (hout : outs[j]? = some out) :
    ∃ dst arg, devicePtrs[out.name]? = some dst ∧ results[oi + j]? = some arg := by
  induction outs generalizing oi copies j with
  | nil => simp at hout
  | cons out' outs ih =>
    obtain ⟨arg, dst, copies', harg, hdst, hrest, rfl⟩ := deliver_cons h
    cases j with
    | zero =>
      obtain rfl := Option.some.inj hout
      exact ⟨dst, arg, hdst, harg⟩
    | succ j =>
      obtain ⟨dst', arg', hdst', harg'⟩ := ih hrest hout
      exact ⟨dst', arg', hdst', by rwa [Nat.add_assoc, Nat.add_comm 1] at harg'⟩

theorem runStaged_copies {concrete : ConcreteDims} {params : ProgramParameters}
    (hstart : (e.runStaged hip devicePtrs concrete).started = some params)
    (heval : M.eval e.prog params = .ok results)
    (hret : (e.runStaged hip devicePtrs concrete).returned = true) :
    deliver hip devicePtrs results 0 e.outputs =
      (true, (e.runStaged hip devicePtrs concrete).copies) := by
  unfold runStaged at hstart hret ⊢
  split at hstart
  next => exact absurd hstart (by simp)
  next params' hparams =>
    obtain rfl : params' = params := by split at hstart <;> exact Option.some.inj hstart
    simp only [hparams, heval] at hret ⊢
    exact Prod.ext hret rfl

end EngineImpl

/-- A staged run that succeeds has delivered the result of every output index to the buffer of its
IO tensor exactly when the indices have no gap. -/
theorem runStaged_delivers_iff (M : Migraphx) (hip : Hip) (ps : ParameterSet)
    (onnxNames : List Bytes) (dyn : DynamicAxis) (e : EngineImpl M) (devicePtrs : DevicePtrs)
    (concrete : ConcreteDims) (params : ProgramParameters) (results : List Argument)
    (hios : buildIos (some dyn) ps.entries onnxNames = some e.ios)
    (hstart : (e.runStaged hip devicePtrs concrete).started = some params)
    (heval : M.eval e.prog params = .ok results)
    (hret : (e.runStaged hip devicePtrs concrete).returned = true) :
    (∀ (k : ℕ) s, (.output k, s) ∈ ps.params →
      ∃ c ∈ (e.runStaged hip devicePtrs concrete).copies,
        devicePtrs[realName onnxNames k]? = some c.dst ∧ c.oi = k ∧
          results[k]? = some c.arg) ↔
      ∀ k s, (.output k, s) ∈ ps.params → k < (outputsOf ps.params).length := by
  have hloop := EngineImpl.runStaged_copies hstart heval hret
  rw [EngineImpl.outputs_dynamic hios] at hloop
  constructor
  · intro h k s hk
    obtain ⟨c, hc, -, rfl, -⟩ := h k s hk
    obtain ⟨j, out, hout, hoi, -⟩ := (EngineImpl.mem_deliver hloop c).mp hc
    have hl := (List.getElem?_eq_some_iff.mp hout).1
    rw [List.length_map, ps.length_outputs] at hl
    rwa [hoi, Nat.zero_add]
  · intro hlt k s hk
    have hout : (ps.outputs.map fun p => markDynamic dyn (outputTensor onnxNames p))[k]? =
        some (markDynamic dyn (outputTensor onnxNames (k, s))) := by
      rw [List.getElem?_map, ps.getElem?_outputs hlt hk, Option.map_some]
    obtain ⟨dst, arg, hdst, harg⟩ := EngineImpl.found_of_deliver hloop hout
    rw [Nat.zero_add] at harg
    refine ⟨⟨dst, k, arg⟩, (EngineImpl.mem_deliver hloop _).mpr
      ⟨k, _, hout, (Nat.zero_add k).symm, hdst, harg⟩, ?_, rfl, harg⟩
    rwa [markDynamic_name] at hdst

/-- A `hipMemcpy` that always succeeds. -/
def Hip.plain : Hip where
  toHost _ size := some (List.replicate size.toNat 0)
  toDevice _ _ := true

/-- A result of two `float` elements with these bytes. -/
def floatResult (byte : UInt8) : Argument := ⟨floatPair, .host (List.replicate 8 byte)⟩

theorem runStaged_delivers_pair :
    let ps := ParameterSet.withOutputs [1, 0] (by decide) (by decide)
    let e : EngineImpl (.single [(text "x", floatPair)] [floatResult 10, floatResult 11]) :=
      ⟨(), [inputTensor (text "x", floatPair), outputTensor [] (0, floatPair),
        outputTensor [] (1, floatPair)].map (markDynamic { input := text "x" })⟩
    let devicePtrs := OrderedMap.fill ∅ [(text "x", 16), (text "output_0", 32),
      (text "output_1", 48)]
    buildIos (some { input := text "x" }) ps.entries [] = some e.ios ∧
      ∃ c ∈ (e.runStaged .plain devicePtrs ∅).copies, c.oi = 1 ∧ c.arg = floatResult 11 := by
  intro ps e devicePtrs
  have hios : buildIos (some { input := text "x" }) ps.entries [] = some e.ios := by
    decide +kernel
  obtain ⟨params, hstart⟩ : ∃ params, (e.runStaged .plain devicePtrs ∅).started = some params :=
    Option.isSome_iff_exists.mp (by decide +kernel)
  have hlt : ∀ k s, (.output k, s) ∈ ps.params → k < (outputsOf ps.params).length :=
    ParameterSet.forall_output_withOutputs (by decide)
  have hd := (runStaged_delivers_iff _ .plain ps [] { input := text "x" } e devicePtrs ∅ params
    [floatResult 10, floatResult 11] hios hstart rfl (by decide +kernel)).mpr hlt
  obtain ⟨c, hc, -, hoi, harg⟩ := hd 1 floatPair
    (ParameterSet.output_mem_withOutputs.mpr ⟨by decide, rfl⟩)
  exact ⟨hios, c, hc, hoi, (Option.some.inj harg).symm⟩

/-- Without an output of index one, the buffer of the output of index two receives the result at
position one. -/
theorem runStaged_gap :
    let ps := ParameterSet.withOutputs [0, 2] (by decide) (by decide)
    let e : EngineImpl (.single [(text "x", floatPair)]
        [floatResult 10, floatResult 11, floatResult 12]) :=
      ⟨(), [inputTensor (text "x", floatPair), outputTensor [] (0, floatPair),
        outputTensor [] (2, floatPair)].map (markDynamic { input := text "x" })⟩
    let devicePtrs := OrderedMap.fill ∅ [(text "x", 16), (text "output_0", 32),
      (text "output_2", 48)]
    buildIos (some { input := text "x" }) ps.entries [] = some e.ios ∧
      (∀ io ∈ e.ios, io.name ∈ devicePtrs) ∧
      (e.runStaged .plain devicePtrs ∅).returned = true ∧
      (e.runStaged .plain devicePtrs ∅).copies =
        [⟨32, 0, floatResult 10⟩, ⟨48, 1, floatResult 11⟩] := by
  decide +kernel

end TrtShim.Backend
