import TrtShim.Backend.Load
import TrtShim.Backend.Staged

/-! # Building an engine

`build` packs the IO list of an engine with its program. For a dynamic engine
the list comes from a static compilation and the dynamic axis from a profile, and
the marks in the list are consistent when the profile names an input of the model
and an axis below its rank.
-/

namespace TrtShim.Backend

open Std

variable {M : Migraphx}

/-- What MIGraphX makes of a model and its build options. An exception is given by its text. -/
structure Compile (M : Migraphx) where
  /-- The program that `introspect` parses and compiles. -/
  introspected : Except String M.Program
  /-- The program that `build` parses, quantizes and compiles. -/
  compiled : Option DynamicAxis → Except String M.Program

/-- The program whose parameters `build` lists. -/
def Compile.listed (c : Compile M) (dyn : Option DynamicAxis) : Except String M.Program :=
  if dyn.isSome then c.introspected else c.compiled dyn

/-- `build`. -/
def build (M : Migraphx) (c : Compile M) (host : Host) (onnxNames : List Bytes)
    (dyn : Option DynamicAxis) (files : TempFiles) : Except String Bytes × TempFiles :=
  match c.compiled dyn with
  | .error what => (.error what, files)
  | .ok prog =>
    match c.listed dyn with
    | .error what => (.error what, files)
    | .ok listed =>
      match buildIos dyn (M.getParameterShapes listed) onnxNames with
      | none => (.error "stoi", files)
      | some ios =>
        match programToBytes M host prog files with
        | (.error what, files) => (.error what, files)
        | (.ok mxr, files) => (.ok (packBlob ios mxr), files)

/-- A build whose calls all succeed. -/
theorem build_of_ok {c : Compile M} {host : Host} {onnxNames : List Bytes}
    {dyn : Option DynamicAxis} {prog listed : M.Program} {ios : List IOTensor} {mxr : Bytes}
    (hcompiled : c.compiled dyn = .ok prog) (hlisted : c.listed dyn = .ok listed)
    (hios : buildIos dyn (M.getParameterShapes listed) onnxNames = some ios)
    (hhost : host.Keeps mxr) (hsave : M.save prog = .ok mxr) (files : TempFiles) :
    build M c host onnxNames dyn files = (.ok (packBlob ios mxr), files) := by
  simp only [build, hcompiled, hlisted, hios, programToBytes_eq hhost hsave]

/-- The blob of a successful build packs the IO list made of the parameters of the program that was
listed. -/
theorem build_eq_ok {c : Compile M} {host : Host} {onnxNames : List Bytes}
    {dyn : Option DynamicAxis} {files files' : TempFiles} {blob : Bytes}
    (h : build M c host onnxNames dyn files = (.ok blob, files')) :
    ∃ listed ios mxr, c.listed dyn = .ok listed ∧
      buildIos dyn (M.getParameterShapes listed) onnxNames = some ios ∧
      blob = packBlob ios mxr := by
  unfold build at h
  split at h
  next => exact absurd (Prod.mk.inj h).1 (by simp)
  next prog _ =>
    split at h
    next => exact absurd (Prod.mk.inj h).1 (by simp)
    next listed hlisted =>
      split at h
      next => exact absurd (Prod.mk.inj h).1 (by simp)
      next ios hios =>
        split at h
        next => exact absurd (Prod.mk.inj h).1 (by simp)
        next mxr _ _ =>
          exact ⟨listed, ios, mxr, hlisted, hios, (Except.ok.inj (Prod.mk.inj h).1).symm⟩

section Marks

variable {dyn : DynamicAxis} {io : IOTensor}

/-- The axis lies on an input: it has the name, and a rank above the axis. -/
def DynamicAxis.On (dyn : DynamicAxis) (io : IOTensor) : Prop :=
  io.name = dyn.input ∧ 0 ≤ dyn.axis ∧ dyn.axis < Int32.ofNat io.dims.length

instance : Decidable (dyn.On io) := instDecidableAnd

theorem DynamicAxis.On.lt_length (h : dyn.On io) : dyn.axis.toNatClampNeg < io.dims.length := by
  obtain ⟨-, hnonneg, hlt⟩ := h
  rw [Int32.le_iff_toInt_le] at hnonneg
  rw [Int32.lt_iff_toInt_lt] at hlt
  have hle : (Int32.ofNat io.dims.length).toInt ≤ io.dims.length := by
    change (BitVec.ofNat 32 io.dims.length).toInt ≤ _
    simp only [BitVec.toInt, BitVec.toNat_ofNat]
    split <;> omega
  have hzero : (0 : Int32).toInt = 0 := rfl
  rw [Int32.toNatClampNeg]
  omega

theorem markDynamic_input (h : io.dir = .kInput) : markDynamic dyn io =
    if dyn.On io then { io with dims := io.dims.set dyn.axis.toNatClampNeg (-1) } else io := by
  have hne : IODir.kInput ≠ IODir.kOutput := by decide
  unfold markDynamic DynamicAxis.On
  simp only [h, true_and]
  split
  · simp [hne]
  · simp [h, hne]

theorem markDynamic_output (h : io.dir = .kOutput) :
    markDynamic dyn io = { io with dims := io.dims.set 0 (-1) } := by
  have hne : IODir.kOutput ≠ IODir.kInput := by decide
  unfold markDynamic
  simp only [h, hne, false_and, if_false, true_and]
  split
  next => rfl
  next hnil => rw [not_not.mp hnil, List.set_nil, ← not_not.mp hnil, ← h]

variable {dims : List Int64} {k b : ℕ}

/-- A mark is the only negative entry among dimensions. -/
theorem getElem?_mark_iff (h : ∀ d ∈ dims, ¬ d < 0) :
    (dims.set k (-1))[b]? = some (-1) ↔ b = k ∧ k < dims.length := by
  have hneg : (-1 : Int64) < 0 := by decide
  rw [List.getElem?_set]
  constructor
  · intro hb
    split at hb
    next hk =>
      split at hb
      next hlt => exact ⟨hk.symm, hlt⟩
      next => exact absurd hb (by simp)
    next => exact absurd hneg (h _ (List.mem_of_getElem? hb))
  · rintro ⟨rfl, hlt⟩
    rw [if_pos rfl, if_pos hlt]

theorem getElem?_of_ne_mark (h : (dims.set k (-1))[b]? ≠ some (-1)) :
    (dims.set k (-1))[b]? = dims[b]? := by
  rw [List.getElem?_set] at h ⊢
  split
  next hk =>
    rw [if_pos hk] at h
    split
    next hlt => exact absurd (if_pos hlt) h
    next hge => rw [← hk, List.getElem?_eq_none (Nat.le_of_not_lt hge)]
  next => rfl

end Marks

/-- A dimension of the IO tensor at a position. -/
def dimAt (ios : List IOTensor) (i a : ℕ) : Option Int64 := (ios[i]?).bind fun io => io.dims[a]?

/-- The IO list marks the axis of the profile and no other dimension of an input, and marks outputs
at their first dimension only. -/
structure MarksAxis (dyn : DynamicAxis) (inputs : List IOTensor) (ios : List IOTensor) : Prop where
  input : ∃ i a : ℕ, (inputs[i]?).map (fun io => io.name) = some dyn.input ∧
    (a : ℤ) = dyn.axis.toInt ∧
    ∀ j < inputs.length, ∀ b, dimAt ios j b = some (-1) ↔ j = i ∧ b = a
  unchanged : ∀ j < inputs.length, ∀ a, dimAt ios j a ≠ some (-1) →
    dimAt ios j a = dimAt inputs j a
  output : ∀ j a, inputs.length ≤ j → dimAt ios j a = some (-1) → a = 0

section MarksAxis

variable {dyn : DynamicAxis} {inputs outputs : List IOTensor} {j : ℕ}

theorem dimAt_input (hin : ∀ io ∈ inputs, io.dir = .kInput) (hj : j < inputs.length) (a : ℕ) :
    dimAt ((inputs ++ outputs).map (markDynamic dyn)) j a =
      if dyn.On inputs[j] then (inputs[j].dims.set dyn.axis.toNatClampNeg (-1))[a]?
      else inputs[j].dims[a]? := by
  rw [dimAt, List.getElem?_map, List.getElem?_append_left hj, List.getElem?_eq_getElem hj,
    Option.map_some, Option.bind_some, markDynamic_input (hin _ (List.getElem_mem hj))]
  split <;> rfl

theorem dimAt_inputs (hj : j < inputs.length) (a : ℕ) :
    dimAt inputs j a = inputs[j].dims[a]? := by
  rw [dimAt, List.getElem?_eq_getElem hj, Option.bind_some]

theorem dimAt_output (hout : ∀ io ∈ outputs, io.dir = .kOutput) (hj : inputs.length ≤ j) (a : ℕ) :
    dimAt ((inputs ++ outputs).map (markDynamic dyn)) j a =
      (outputs[j - inputs.length]?).bind fun io => (io.dims.set 0 (-1))[a]? := by
  rw [dimAt, List.getElem?_map, List.getElem?_append_right hj]
  rcases ho : outputs[j - inputs.length]? with _ | io
  · rfl
  · rw [Option.map_some, Option.bind_some, Option.bind_some,
      markDynamic_output (hout io (List.mem_of_getElem? ho))]

/-- A dimension of an input is marked exactly if the axis lies on it. -/
theorem dimAt_eq_mark_iff (hin : ∀ io ∈ inputs, io.dir = .kInput) (hj : j < inputs.length)
    (hdims : ∀ d ∈ inputs[j].dims, ¬ d < 0) (a : ℕ) :
    dimAt ((inputs ++ outputs).map (markDynamic dyn)) j a = some (-1) ↔
      dyn.On inputs[j] ∧ a = dyn.axis.toNatClampNeg := by
  have hneg : (-1 : Int64) < 0 := by decide
  rw [dimAt_input hin hj]
  split
  next hon =>
    rw [getElem?_mark_iff hdims]
    exact ⟨fun ha => ⟨hon, ha.1⟩, fun ha => ⟨ha.2, hon.lt_length⟩⟩
  next hoff =>
    constructor
    · exact fun ha => absurd hneg (hdims _ (List.mem_of_getElem? ha))
    · exact fun ha => absurd ha.1 hoff

/-- The axis lies on one input at most. -/
theorem DynamicAxis.On.unique (hnames : (inputs.map fun io => io.name).Nodup) {i j : ℕ}
    {hi : i < inputs.length} {hj : j < inputs.length} (hon : dyn.On inputs[i])
    (hon' : dyn.On inputs[j]) : i = j := by
  have hi' : i < (inputs.map fun io => io.name).length := by simpa using hi
  have hj' : j < (inputs.map fun io => io.name).length := by simpa using hj
  have hget : (inputs.map fun io => io.name)[i] = (inputs.map fun io => io.name)[j] := by
    rw [List.getElem_map, List.getElem_map, hon.1, hon'.1]
  exact hnames.getElem_inj_iff.mp hget

/-- The marks are consistent exactly if the axis lies on one of the inputs. -/
theorem marksAxis_iff (hin : ∀ io ∈ inputs, io.dir = .kInput)
    (hout : ∀ io ∈ outputs, io.dir = .kOutput) (hnames : (inputs.map fun io => io.name).Nodup)
    (hdims : ∀ io ∈ inputs ++ outputs, ∀ d ∈ io.dims, ¬ d < 0) :
    MarksAxis dyn inputs ((inputs ++ outputs).map (markDynamic dyn)) ↔
      ∃ io ∈ inputs, dyn.On io := by
  have hentry {j : ℕ} (hj : j < inputs.length) (b : ℕ) :
      dimAt ((inputs ++ outputs).map (markDynamic dyn)) j b = some (-1) ↔
        dyn.On inputs[j] ∧ b = dyn.axis.toNatClampNeg :=
    dimAt_eq_mark_iff hin hj (hdims _ (List.mem_append_left _ (List.getElem_mem hj))) b
  constructor
  · rintro ⟨⟨i, a, hname, -, hmark⟩, -, -⟩
    obtain ⟨io, hio, -⟩ := Option.map_eq_some_iff.mp hname
    obtain ⟨hi, rfl⟩ := List.getElem?_eq_some_iff.mp hio
    have hon := ((hentry hi a).mp ((hmark i hi a).mpr ⟨rfl, rfl⟩)).1
    exact ⟨inputs[i], List.getElem_mem hi, hon⟩
  · rintro ⟨io, hio, hon⟩
    obtain ⟨i, hi, rfl⟩ := List.getElem_of_mem hio
    have hname : (inputs[i]?).map (fun io => io.name) = some dyn.input := by
      rw [List.getElem?_eq_getElem hi, Option.map_some, hon.1]
    have haxis : (dyn.axis.toNatClampNeg : ℤ) = dyn.axis.toInt :=
      Int.toNat_of_nonneg (Int32.le_iff_toInt_le.mp hon.2.1)
    refine ⟨⟨i, dyn.axis.toNatClampNeg, hname, haxis, fun j hj b => ?_⟩, fun j hj b hb => ?_,
      fun j b hj hb => ?_⟩
    · rw [hentry hj]
      constructor
      · exact fun h => ⟨h.1.unique hnames hon, h.2⟩
      · rintro ⟨rfl, rfl⟩
        exact ⟨hon, rfl⟩
    · rw [dimAt_inputs hj]
      rw [dimAt_input hin hj] at hb ⊢
      split
      next h => exact getElem?_of_ne_mark (by rwa [if_pos h] at hb)
      next => rfl
    · rw [dimAt_output hout hj] at hb
      obtain ⟨io, ho, hb⟩ := Option.bind_eq_some_iff.mp hb
      have hnn' : ∀ d ∈ io.dims, ¬ d < 0 :=
        hdims io (List.mem_append_right _ (List.mem_of_getElem? ho))
      exact ((getElem?_mark_iff hnn').mp hb).1

end MarksAxis

/-- The engine that a build with a profile returns has its marks on the axis of the profile, and on
nothing else of an input, exactly if the axis lies on one of the inputs. -/
theorem build_marksAxis_iff (M : Migraphx) (c : Compile M) (host : Host) (onnxNames : List Bytes)
    (dyn : DynamicAxis) (files files' : TempFiles) (blob : Bytes) (listed : M.Program)
    (inputs outputs : List IOTensor)
    (hbuild : build M c host onnxNames (some dyn) files = (.ok blob, files'))
    (hlisted : c.introspected = .ok listed)
    (hsplit : splitIo (M.getParameterShapes listed) onnxNames = some (inputs, outputs))
    (hnames : ((inputs ++ outputs).map fun io => io.name).Nodup)
    (hdims : ∀ io ∈ inputs ++ outputs, ∀ d ∈ io.dims, ¬ d < 0) :
    ∃ ios mxr, blob = packBlob ios mxr ∧ ios = (inputs ++ outputs).map (markDynamic dyn) ∧
      (MarksAxis dyn inputs ios ↔ ∃ io ∈ inputs, dyn.On io) := by
  obtain ⟨listed', ios, mxr, hlisted', hios, hblob⟩ := build_eq_ok hbuild
  obtain rfl : listed' = listed := Except.ok.inj (hlisted'.symm.trans hlisted)
  obtain rfl : (inputs ++ outputs).map (markDynamic dyn) = ios := by
    simpa only [buildIos, hsplit, Option.bind_eq_bind, Option.bind_some, Option.pure_def,
      Option.some.injEq] using hios
  obtain ⟨hin, hout⟩ := splitIo_dir hsplit
  rw [List.map_append, List.nodup_append] at hnames
  exact ⟨_, mxr, hblob, rfl, marksAxis_iff hin hout hnames.1 hdims⟩

/-- A model whose compilations succeed. -/
def Compile.plain (params : List (Bytes × Shape)) : Compile (.single params []) where
  introspected := .ok ()
  compiled _ := .ok ()

/-- The parameters of a program with the input `x` and one output. -/
def pairParams : List (Bytes × Shape) :=
  [(text "x", floatPair), (text "main:#output_0", floatPair)]

theorem build_pair {dyn : DynamicAxis} {ios : List IOTensor}
    (hios : buildIos (some dyn) pairParams [] = some ios) :
    build _ (.plain pairParams) .plain [] (some dyn) [] = (.ok (packBlob ios [77]), []) :=
  build_of_ok rfl rfl hios (Host.plain_keeps (by decide)) rfl []

theorem build_marksAxis_pair :
    let dyn : DynamicAxis := { input := text "x", max := 4 }
    MarksAxis dyn [inputTensor (text "x", floatPair)]
      ([inputTensor (text "x", floatPair), outputTensor [] (0, floatPair)].map
        (markDynamic dyn)) := by
  intro dyn
  have hios : buildIos (some dyn) pairParams [] = some ([inputTensor (text "x", floatPair),
      outputTensor [] (0, floatPair)].map (markDynamic dyn)) := by decide +kernel
  have hfits : floatPair.FitsDims := by decide
  have hdims : ∀ io ∈ [inputTensor (text "x", floatPair)] ++ [outputTensor [] (0, floatPair)],
      ∀ d ∈ io.dims, ¬ d < 0 := by
    rintro io (_ | ⟨_, _ | ⟨_, ⟨⟩⟩⟩)
    · exact hfits.not_neg
    · exact hfits.not_neg
  obtain ⟨ios, mxr, -, rfl, hmarks⟩ := build_marksAxis_iff _ (.plain pairParams) .plain [] dyn [] []
    _ () [inputTensor (text "x", floatPair)] [outputTensor [] (0, floatPair)]
    (build_pair hios) rfl (by decide +kernel) (by decide +kernel) hdims
  exact hmarks.mpr ⟨_, List.mem_singleton_self _, by decide +kernel⟩

/-- The profile names no input of the model, and the engine has a dynamic output and no dynamic
input. -/
theorem build_not_marksAxis :
    let dyn : DynamicAxis := { input := text "z", max := 4 }
    let input := inputTensor (text "x", floatPair)
    let output := { outputTensor [] (0, floatPair) with dims := [-1] }
    build _ (.plain pairParams) .plain [] (some dyn) [] =
        (.ok (packBlob [input, output] [77]), []) ∧
      input.dims = [2] ∧ ¬ MarksAxis dyn [input] [input, output] := by
  intro dyn input output
  refine ⟨build_pair (by decide +kernel), by decide +kernel, ?_⟩
  rintro ⟨⟨i, a, hname, -, -⟩, -, -⟩
  rcases i with _ | i
  · exact absurd hname (by decide +kernel)
  · exact absurd hname (by simp)

end TrtShim.Backend
