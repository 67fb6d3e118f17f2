import TrtShim.Backend.Build
import TrtShim.Shim.Shapes

/-! # The shapes of a dynamic engine

The engine replaces the marks in its metadata by the batch that was set for the
dynamic input. A context reports the shapes that were set, and for the other
tensors the metadata with the marks still in it.
-/

namespace TrtShim.Shim

open Std Backend

variable {M : Migraphx}

/-- An IO tensor as `build` lists it. -/
def listedAs (dyn : Option DynamicAxis) (io : IOTensor) : IOTensor :=
  match dyn with
  | none => io
  | some dyn => markDynamic dyn io

section Listed

variable {dyn : Option DynamicAxis} {io : IOTensor}

@[simp] theorem listedAs_name : (listedAs dyn io).name = io.name := by
  cases dyn with
  | none => rfl
  | some dyn => exact markDynamic_name dyn io

@[simp] theorem listedAs_dir : (listedAs dyn io).dir = io.dir := by
  cases dyn with
  | none => rfl
  | some dyn => exact markDynamic_dir dyn io

/-- A mark is the only dimension of a listed tensor that may be negative. -/
theorem neg_of_listedAs (hdir : io.dir = .kInput ∨ io.dir = .kOutput)
    (hdims : ∀ d ∈ io.dims, ¬ d < 0) {d : Int64} (hd : d ∈ (listedAs dyn io).dims) (hneg : d < 0) :
    d = -1 := by
  have hset {a : ℕ} (h : d ∈ io.dims.set a (-1)) : d = -1 := by
    rcases List.mem_or_eq_of_mem_set h with h | h
    · exact absurd hneg (hdims d h)
    · exact h
  cases dyn with
  | none => exact absurd hneg (hdims d hd)
  | some dyn =>
    change d ∈ (markDynamic dyn io).dims at hd
    rcases hdir with hdir | hdir
    · rw [markDynamic_input hdir] at hd
      split at hd
      · exact hset hd
      · exact absurd hneg (hdims d hd)
    · rw [markDynamic_output hdir] at hd
      exact hset hd

end Listed

section FirstMark

variable {dims concrete : List Int64} {a : ℕ}

theorem findSome?_zip_of_nonneg (h : ∀ d ∈ dims, ¬ d < 0) :
    ((dims.zip concrete).findSome? fun d => if d.1 < 0 then some d.2 else none) = none :=
  List.findSome?_eq_none_iff.mpr fun d hd => if_neg (h d.1 (List.of_mem_zip hd).1)

/-- The concrete dimension at the mark is the first one found. -/
theorem findSome?_zip_mark (h : ∀ d ∈ dims, ¬ d < 0) (ha : a < dims.length) :
    (((dims.set a (-1)).zip concrete).findSome? fun d => if d.1 < 0 then some d.2 else none) =
      concrete[a]? := by
  have hmark : (-1 : Int64) < 0 := by decide
  induction dims generalizing a concrete with
  | nil => exact absurd ha (Nat.not_lt_zero a)
  | cons d dims ih =>
    rw [List.forall_mem_cons] at h
    cases concrete with
    | nil => simp
    | cons x concrete =>
      cases a with
      | zero => simp [hmark]
      | succ a =>
        rw [List.set_cons_succ, List.zip_cons_cons, List.findSome?_cons, if_neg h.1]
        exact ih h.2 (Nat.lt_of_succ_lt_succ ha)

end FirstMark

/-- The batch that a history sets: the dimension set last for the dynamic input at its axis, and
one before it is set. -/
def setBatch (dyn : Option DynamicAxis) (calls : List ContextCall) : Int64 :=
  match dyn with
  | none => 1
  | some dyn =>
    if 0 ≤ dyn.axis then
      ((Lists.lastValue (shapeWrites calls) dyn.input).bind fun dims =>
        dims[dyn.axis.toNatClampNeg]?).getD 1
    else 1

/-- Every shape set names an input and has its rank. -/
def NamesInputs (ios : List IOTensor) (calls : List ContextCall) : Prop :=
  ∀ p ∈ shapeWrites calls, ∃ io ∈ ios, io.dir = .kInput ∧ io.name = p.1 ∧
    io.dims.length = p.2.length

section Built

variable {ps : ParameterSet} {onnxNames : List Bytes} {dyn : Option DynamicAxis}
  {e : EngineImpl M}

theorem buildIos_eq (dyn : Option DynamicAxis) (ps : ParameterSet) (onnxNames : List Bytes) :
    buildIos dyn ps.entries onnxNames = some
      ((inputsOf ps.params).map (fun p => listedAs dyn (inputTensor p)) ++
        ps.outputs.map fun p => listedAs dyn (outputTensor onnxNames p)) := by
  cases dyn with
  | none => exact buildIos_static ps onnxNames
  | some dyn => simp [buildIos, ps.splitIo_entries, listedAs, Function.comp_def]

theorem mem_ios_of_build (hios : buildIos dyn ps.entries onnxNames = some e.ios) {io : IOTensor}
    (hio : io ∈ e.ios) :
    (∃ name s, (.input name, s) ∈ ps.params ∧ io = listedAs dyn (inputTensor (name, s))) ∨
      ∃ k s, (.output k, s) ∈ ps.params ∧ io = listedAs dyn (outputTensor onnxNames (k, s)) := by
  rw [buildIos_eq, Option.some.injEq] at hios
  rw [← hios, List.mem_append] at hio
  rcases hio with hio | hio
  · obtain ⟨p, hp, rfl⟩ := List.mem_map.mp hio
    exact .inl ⟨p.1, p.2, mem_inputsOf.mp hp, rfl⟩
  · obtain ⟨p, hp, rfl⟩ := List.mem_map.mp hio
    exact .inr ⟨p.1, p.2, ps.mem_outputs.mp hp, rfl⟩

theorem inputs_of_build (hios : buildIos dyn ps.entries onnxNames = some e.ios) {name : Bytes}
    {io : IOTensor} : e.inputs[name]? = some io ↔
      ∃ s, (.input name, s) ∈ ps.params ∧ io = listedAs dyn (inputTensor (name, s)) := by
  have hne : IODir.kOutput ≠ IODir.kInput := by decide
  have hkeys : (e.ios.filter fun io => io.dir = .kInput).map (fun io => (io.name, io)) =
      (inputsOf ps.params).map fun p => (p.1, listedAs dyn (inputTensor p)) := by
    rw [buildIos_eq, Option.some.injEq] at hios
    rw [← hios, List.filter_append, List.filter_eq_self.mpr, List.filter_eq_nil_iff.mpr,
      List.append_nil, List.map_map]
    · refine List.map_congr_left fun p _ => Prod.ext ?_ rfl
      exact listedAs_name
    · rw [List.forall_mem_map]
      intro p _
      simp [outputTensor, ioFromShape, hne]
    · rw [List.forall_mem_map]
      intro p _
      simp [inputTensor, ioFromShape]
  have hnodup : (((inputsOf ps.params).map fun p =>
      (p.1, listedAs dyn (inputTensor p))).map Prod.fst).Nodup := by
    rw [List.map_map]
    exact ps.inputs_nodup
  rw [EngineImpl.inputs, hkeys, OrderedMap.getElem?_fill_iff hnodup]
  simp only [List.mem_map, Prod.mk.injEq, Prod.exists]
  constructor
  · rintro ⟨_, s, hp, rfl, rfl⟩
    exact ⟨s, mem_inputsOf.mp hp, rfl⟩
  · rintro ⟨s, hp, rfl⟩
    exact ⟨name, s, mem_inputsOf.mpr hp, rfl, rfl⟩

/-- The dimension that `dynamic_batch` finds in the shape of one input. -/
theorem batch_of_input (hfits : ∀ p s, (p, s) ∈ ps.params → s.FitsDims)
    (hios : buildIos dyn ps.entries onnxNames = some e.ios) {name : Bytes} {io : IOTensor}
    (hio : e.inputs[name]? = some io) (dims : List Int64) :
    ((io.dims.zip dims).findSome? fun d => if d.1 < 0 then some d.2 else none) =
      match dyn with
      | none => none
      | some dyn => if dyn.On io then dims[dyn.axis.toNatClampNeg]? else none := by
  obtain ⟨s, hs, rfl⟩ := (inputs_of_build hios).mp hio
  have hnn : ∀ d ∈ (inputTensor (name, s)).dims, ¬ d < 0 := (hfits _ s hs).not_neg
  cases dyn with
  | none => exact findSome?_zip_of_nonneg hnn
  | some dyn =>
    have hlen : (markDynamic dyn (inputTensor (name, s))).dims.length =
        (inputTensor (name, s)).dims.length := by
      rw [markDynamic_input rfl]
      split
      · exact List.length_set
      · rfl
    have hon : dyn.On (markDynamic dyn (inputTensor (name, s))) ↔
        dyn.On (inputTensor (name, s)) := by
      rw [DynamicAxis.On, DynamicAxis.On, markDynamic_name, hlen]
    simp only [listedAs, hon]
    rw [markDynamic_input rfl]
    split
    next h => exact findSome?_zip_mark hnn h.lt_length
    next => exact findSome?_zip_of_nonneg hnn

theorem name_of_inputs (hios : buildIos dyn ps.entries onnxNames = some e.ios) {name : Bytes}
    {io : IOTensor} (hio : e.inputs[name]? = some io) : io.name = name := by
  obtain ⟨s, -, rfl⟩ := (inputs_of_build hios).mp hio
  exact listedAs_name

/-- The input that a shape was set for. -/
theorem input_of_set (hios : buildIos dyn ps.entries onnxNames = some e.ios)
    {calls : List ContextCall} (hcalls : NamesInputs e.ios calls) {name : Bytes}
    {dims : List Int64} (hset : Lists.lastValue (shapeWrites calls) name = some dims) :
    ∃ io, e.inputs[name]? = some io ∧ io.dims.length = dims.length := by
  obtain ⟨io, hio, hdir, hname, hlen⟩ := hcalls _ (Lists.mem_of_lastValue hset)
  rcases mem_ios_of_build hios hio with ⟨name', s, hs, rfl⟩ | ⟨k, s, -, rfl⟩
  · obtain rfl : name' = name := listedAs_name.symm.trans hname
    exact ⟨_, (inputs_of_build hios).mpr ⟨s, hs, rfl⟩, hlen⟩
  · rw [listedAs_dir] at hdir
    exact absurd hdir (by simp [outputTensor, ioFromShape, IODir.kOutput, IODir.kInput])

/-- An axis that is not on an input of a rank that fits an array is beyond the rank. -/
theorem getElem?_of_not_on {axis : DynamicAxis} {io : IOTensor} (hname : io.name = axis.input)
    (hnonneg : 0 ≤ axis.axis) (hon : ¬ axis.On io) {dims : List Int64}
    (hlen : io.dims.length = dims.length) (hle : dims.length ≤ maxDims) :
    dims[axis.axis.toNatClampNeg]? = none := by
  have hmax : maxDims = 8 := rfl
  have hlt : ¬ axis.axis < Int32.ofNat io.dims.length := fun h => hon ⟨hname, hnonneg, h⟩
  rw [hlen, Int32.lt_iff_toInt_lt, Int32.toInt_ofNat_of_lt (by omega)] at hlt
  rw [List.getElem?_eq_none_iff, Int32.toNatClampNeg]
  omega

/-- The batch that an engine finds in the shapes of a context is the one that was set. -/
theorem dynamicBatch_eq (hfits : ∀ p s, (p, s) ∈ ps.params → s.FitsDims)
    (hios : buildIos dyn ps.entries onnxNames = some e.ios) {calls : List ContextCall}
    (hcalls : NamesInputs e.ios calls) :
    e.dynamicBatch (OrderedMap.fill ∅ (shapeWrites calls)) = setBatch dyn calls := by
  let f (name : Bytes) (dims : List Int64) : Option Int64 := (e.inputs[name]?).bind fun io =>
    (io.dims.zip dims).findSome? fun d => if d.1 < 0 then some d.2 else none
  have hf {name : Bytes} {io : IOTensor} (hio : e.inputs[name]? = some io) (dims : List Int64) :
      f name dims = match dyn with
        | none => none
        | some dyn => if dyn.On io then dims[dyn.axis.toNatClampNeg]? else none := by
    change (e.inputs[name]?).bind _ = _
    rw [hio, Option.bind_some, batch_of_input hfits hios hio]
  have hbatch : e.dynamicBatch (OrderedMap.fill ∅ (shapeWrites calls)) =
      ((OrderedMap.fill ∅ (shapeWrites calls)).toList.findSome? fun p => f p.1 p.2).getD 1 := rfl
  rw [hbatch]
  cases dyn with
  | none =>
    rw [OrderedMap.findSome?_toList_eq_none_iff.mpr]
    · rfl
    · intro name dims _
      rcases hio : e.inputs[name]? with _ | io
      · simp only [f, hio, Option.bind_none]
      · exact hf hio dims
  | some axis =>
    have hunique : ∀ name dims, name ≠ axis.input → f name dims = none := by
      intro name dims hne
      rcases hio : e.inputs[name]? with _ | io
      · simp only [f, hio, Option.bind_none]
      · rw [hf hio dims]
        exact if_neg fun hon => hne ((name_of_inputs hios hio).symm.trans hon.1)
    rw [OrderedMap.findSome?_toList_of_unique axis.input hunique, OrderedMap.getElem?_fill,
      setBatch]
    rcases hset : Lists.lastValue (shapeWrites calls) axis.input with _ | dims
    · split <;> rfl
    · obtain ⟨io, hio, hlen⟩ := input_of_set hios hcalls hset
      rw [Option.some_or, Option.bind_some, Option.bind_some, hf hio dims]
      by_cases hon : axis.On io
      · simp only [if_pos hon, if_pos hon.2.1]
      · simp only [if_neg hon]
        split
        next hnonneg =>
          rw [getElem?_of_not_on (name_of_inputs hios hio) hnonneg hon hlen
            (length_of_shapeWrites (Lists.mem_of_lastValue hset))]
        next => rfl

theorem neg_of_mem_ios (hfits : ∀ p s, (p, s) ∈ ps.params → s.FitsDims)
    (hios : buildIos dyn ps.entries onnxNames = some e.ios) {io : IOTensor} (hio : io ∈ e.ios) :
    ∀ d ∈ io.dims, d < 0 → d = -1 := by
  intro d hd hneg
  rcases mem_ios_of_build hios hio with ⟨name, s, hs, rfl⟩ | ⟨k, s, hs, rfl⟩
  · exact neg_of_listedAs (.inl rfl) (hfits _ s hs).not_neg hd hneg
  · exact neg_of_listedAs (.inr rfl) (hfits _ s hs).not_neg hd hneg

/-- The outputs of a dynamic engine are marked at their first dimension. -/
theorem output_marked {axis : DynamicAxis}
    (hios : buildIos (some axis) ps.entries onnxNames = some e.ios) {io : IOTensor}
    (hio : io ∈ e.ios) (hdir : io.dir = .kOutput) (hne : io.dims ≠ []) :
    io.dims[0]? = some (-1 : Int64) := by
  rcases mem_ios_of_build hios hio with ⟨name, s, -, rfl⟩ | ⟨k, s, -, rfl⟩
  · rw [listedAs_dir] at hdir
    exact absurd hdir (by simp [inputTensor, ioFromShape, IODir.kOutput, IODir.kInput])
  · change (markDynamic axis (outputTensor onnxNames (k, s))).dims ≠ [] at hne
    change (markDynamic axis (outputTensor onnxNames (k, s))).dims[0]? = _
    rw [markDynamic_output rfl] at hne ⊢
    have hne' : (outputTensor onnxNames (k, s)).dims ≠ [] := fun h => hne (by rw [h]; rfl)
    rw [List.getElem?_set_self (List.length_pos_iff.mpr hne')]

end Built

/-- A batch is one of the dimensions set, or one. -/
theorem setBatch_nonneg {dyn : Option DynamicAxis} {calls : List ContextCall}
    (h : ∀ p ∈ shapeWrites calls, ∀ d ∈ p.2, ¬ d < 0) : ¬ setBatch dyn calls < 0 := by
  have hone : ¬ (1 : Int64) < 0 := by decide
  cases dyn with
  | none => exact hone
  | some axis =>
    rw [setBatch]
    split
    · rcases hset : Lists.lastValue (shapeWrites calls) axis.input with _ | dims
      · exact hone
      · rw [Option.bind_some]
        rcases hd : dims[axis.axis.toNatClampNeg]? with _ | d
        · exact hone
        · exact h _ (Lists.mem_of_lastValue hset) d (List.mem_of_getElem? hd)
    · exact hone

/-- The dimensions that the engine uses for a tensor: those set last, or those of the metadata with
the batch for its marks. -/
def engineDims (e : ShimEngine M) (c : ShimContext M) (calls : List ContextCall) (name : Bytes) :
    Option (List Int64) :=
  (Lists.lastValue (shapeWrites calls) name).or ((tensorOf e.ios name).map fun io =>
    EngineImpl.resolve io.dims (e.engine.dynamicBatch c.shapes))

/-- A context that has received some calls reports the shape that the engine uses. In particular, if
no dimension was set to a negative value, then once the dynamic input has a shape no dimension is
reported as negative, and the first dimension of an output is the batch that was set. -/
structure Agrees (e : ShimEngine M) (dyn : Option DynamicAxis) (c : ShimContext M)
    (calls : List ContextCall) (name : Bytes) : Prop where
  shape : c.getTensorShape name = match engineDims e c calls name with
    | some dims => toDims dims
    | none => {}
  nonneg : (∀ p ∈ shapeWrites calls, ∀ d ∈ p.2, ¬ d < 0) →
    (∀ axis, dyn = some axis → Lists.lastValue (shapeWrites calls) axis.input ≠ none) →
    ∀ i, ¬ (c.getTensorShape name).dim i < 0
  batch : ∀ axis io, dyn = some axis → Lists.lastValue (shapeWrites calls) axis.input ≠ none →
    Lists.lastValue (shapeWrites calls) name = none → tensorOf e.ios name = some io →
    io.dir = .kOutput → io.dims ≠ [] → (c.getTensorShape name).dim 0 = setBatch dyn calls

theorem dim_nonneg {v : List Int64} (h : ∀ d ∈ v.take maxDims, ¬ d < 0) (i : ℕ) :
    ¬ (toDims v).dim i < 0 := by
  have hzero : ¬ (0 : Int64) < 0 := by decide
  rw [dim_toDims]
  split
  next hi =>
    rcases hd : v[i]? with _ | d
    · exact hzero
    · exact h d (List.mem_of_getElem? ((List.getElem?_take_of_lt hi).trans hd))
  next => exact hzero

section Report

variable {ps : ParameterSet} {onnxNames : List Bytes} {dyn : Option DynamicAxis}
  {e : ShimEngine M} {hip : Hip} {calls : List ContextCall} {name : Bytes} {io : IOTensor}

theorem getTensorShape_of_set {dims : List Int64}
    (hset : Lists.lastValue (shapeWrites calls) name = some dims) :
    (e.createExecutionContext.after hip calls).getTensorShape name = toDims dims := by
  rw [ShimContext.getTensorShape, dimsOf_after, hset]
  rfl

theorem getTensorShape_of_unset (hset : Lists.lastValue (shapeWrites calls) name = none)
    (htensor : tensorOf e.ios name = some io) :
    (e.createExecutionContext.after hip calls).getTensorShape name = toDims io.dims := by
  rw [ShimContext.getTensorShape, dimsOf_after, hset, htensor]
  rfl

theorem getTensorShape_of_unknown (hset : Lists.lastValue (shapeWrites calls) name = none)
    (htensor : tensorOf e.ios name = none) :
    (e.createExecutionContext.after hip calls).getTensorShape name = {} := by
  rw [ShimContext.getTensorShape, dimsOf_after, hset, htensor]
  rfl

theorem engineDims_after (hfits : ∀ p s, (p, s) ∈ ps.params → s.FitsDims)
    (hios : buildIos dyn ps.entries onnxNames = some e.ios) (hcalls : NamesInputs e.ios calls) :
    engineDims e (e.createExecutionContext.after hip calls) calls name =
      (Lists.lastValue (shapeWrites calls) name).or ((tensorOf e.ios name).map fun io =>
        EngineImpl.resolve io.dims (setBatch dyn calls)) := by
  have hbatch : e.engine.dynamicBatch (e.createExecutionContext.after hip calls).shapes =
      setBatch dyn calls := by
    rw [after_create]
    exact dynamicBatch_eq hfits hios hcalls
  rw [engineDims, hbatch]

/-- Resolving the metadata changes what is reported of it exactly if there is a mark to resolve. -/
theorem toDims_resolve_iff (hneg : ∀ d ∈ io.dims, d < 0 → d = -1) (batch : Int64) :
    toDims io.dims = toDims (EngineImpl.resolve io.dims batch) ↔
      ((-1 : Int64) ∈ io.dims.take maxDims → batch = -1) := by
  rw [EngineImpl.resolve, toDims_map_iff]
  constructor
  · exact fun h hm => (if_pos (by decide)).symm.trans (h (-1) hm)
  · intro h d hd
    split
    next hlt =>
      obtain rfl := hneg d (List.mem_of_mem_take hd) hlt
      exact h hd
    next => rfl

/-- A tensor whose shape was not set. -/
theorem agrees_of_unset_iff (hios : buildIos dyn ps.entries onnxNames = some e.ios)
    (hfits : ∀ p s, (p, s) ∈ ps.params → s.FitsDims) (hcalls : NamesInputs e.ios calls)
    (hset : Lists.lastValue (shapeWrites calls) name = none)
    (htensor : tensorOf e.ios name = some io) :
    Agrees e dyn (e.createExecutionContext.after hip calls) calls name ↔
      ((-1 : Int64) ∈ io.dims.take maxDims → setBatch dyn calls = -1) := by
  have hio : io ∈ e.engine.ios := List.mem_of_find?_eq_some htensor
  have hneg := neg_of_mem_ios hfits hios hio
  have hshape : (e.createExecutionContext.after hip calls).getTensorShape name =
      toDims io.dims := getTensorShape_of_unset hset htensor
  have hresolved : engineDims e (e.createExecutionContext.after hip calls) calls name =
      some (EngineImpl.resolve io.dims (setBatch dyn calls)) := by
    rw [engineDims_after hfits hios hcalls, hset, htensor]
    rfl
  rw [← toDims_resolve_iff hneg]
  constructor
  · intro h
    have hs := h.shape
    rwa [hshape, hresolved] at hs
  · intro hsame
    have hmark := (toDims_resolve_iff hneg _).mp hsame
    refine ⟨?_, fun hnn _ i => ?_, ?_⟩
    · rwa [hshape, hresolved]
    · rw [hshape]
      refine dim_nonneg (fun d hd hlt => ?_) i
      obtain rfl := hneg d (List.mem_of_mem_take hd) hlt
      exact setBatch_nonneg hnn (hmark hd ▸ hlt)
    · rintro axis io' rfl - - htensor' hdir hne
      obtain rfl := Option.some.inj (htensor.symm.trans htensor')
      have hfirst := output_marked hios hio hdir hne
      have hm : (-1 : Int64) ∈ io.dims.take maxDims := by
        apply List.mem_of_getElem? (i := 0)
        rwa [List.getElem?_take_of_lt (by decide)]
      rw [hshape, dim_toDims, if_pos (by decide), hfirst, hmark hm]
      rfl

theorem agrees_of_set {dims : List Int64}
    (hset : Lists.lastValue (shapeWrites calls) name = some dims) :
    Agrees e dyn (e.createExecutionContext.after hip calls) calls name := by
  have hshape : (e.createExecutionContext.after hip calls).getTensorShape name = toDims dims :=
    getTensorShape_of_set hset
  refine ⟨?_, fun hnn _ i => ?_, ?_⟩
  · rw [hshape, engineDims, hset]
    rfl
  · rw [hshape]
    refine dim_nonneg (fun d hd => ?_) i
    exact hnn _ (Lists.mem_of_lastValue hset) d (List.mem_of_mem_take hd)
  · intro _ _ _ _ h
    exact absurd (hset.symm.trans h) (by simp)

theorem agrees_of_unknown (hset : Lists.lastValue (shapeWrites calls) name = none)
    (htensor : tensorOf e.ios name = none) :
    Agrees e dyn (e.createExecutionContext.after hip calls) calls name := by
  have hshape : (e.createExecutionContext.after hip calls).getTensorShape name = {} :=
    getTensorShape_of_unknown hset htensor
  refine ⟨?_, fun _ _ i => ?_, ?_⟩
  · rw [hshape, engineDims, hset, htensor]
    rfl
  · rw [hshape]
    exact dim_nonneg (v := []) (by simp) i
  · intro _ _ _ _ _ h
    exact absurd (htensor.symm.trans h) (by simp)

end Report

/-- The shape of a tensor of a built engine, static or dynamic, is reported as the engine uses it
exactly if the shape was set, or the metadata has no mark among the dimensions reported, or the
batch set is the mark itself. -/
theorem agrees_iff (M : Migraphx) (hip : Hip) (ps : ParameterSet) (onnxNames : List Bytes)
    (dyn : Option DynamicAxis) (e : ShimEngine M) (calls : List ContextCall) (name : Bytes)
    (hios : buildIos dyn ps.entries onnxNames = some e.ios)
    (hfits : ∀ p s, (p, s) ∈ ps.params → s.FitsDims) (hcalls : NamesInputs e.ios calls) :
    Agrees e dyn (e.createExecutionContext.after hip calls) calls name ↔
      Lists.lastValue (shapeWrites calls) name ≠ none ∨
        ∀ io, tensorOf e.ios name = some io → (-1 : Int64) ∈ io.dims.take maxDims →
          setBatch dyn calls = -1 := by
  rcases hset : Lists.lastValue (shapeWrites calls) name with _ | dims
  · rcases htensor : tensorOf e.ios name with _ | io
    · exact iff_of_true (agrees_of_unknown hset htensor) (.inr nofun)
    · rw [agrees_of_unset_iff hios hfits hcalls hset htensor]
      constructor
      · intro h
        right
        rintro io' ⟨⟩
        exact h
      · rintro (hne | h)
        · exact absurd rfl hne
        · exact h io rfl
  · exact iff_of_true (agrees_of_set hset) (.inl (Option.some_ne_none dims))

/-- A dynamic engine with the input `x` and one output. -/
def dynamicPair : ShimEngine (.single [(text "x", floatPair)] [floatResult 10]) where
  engine := ⟨(), [{ inputTensor (text "x", floatPair) with dims := [-1] },
    { outputTensor [] (0, floatPair) with dims := [-1] }]⟩
  blob := ⟨[], by decide⟩

/-- Set the batch of the input `x` to four. -/
def setBatchFour : ContextCall := .setInputShape (text "x") ⟨toDims [4], by decide⟩

theorem dynamicPair_namesInputs : NamesInputs dynamicPair.ios [setBatchFour] := by
  intro p hp
  obtain rfl := List.mem_singleton.mp hp
  exact ⟨_, List.mem_cons_self, rfl, rfl, by decide +kernel⟩

theorem agrees_dynamic_input :
    Agrees dynamicPair (some { input := text "x", max := 4 })
      (dynamicPair.createExecutionContext.after .plain [setBatchFour]) [setBatchFour]
      (text "x") := by
  let ps := ParameterSet.withOutputs [0] (by decide) (by decide)
  have hfits : ∀ p s, (p, s) ∈ ps.params → s.FitsDims := by
    intro p s h
    obtain rfl : s = floatPair := by
      cases p with
      | input name => exact (ParameterSet.input_mem_withOutputs.mp h).2
      | output k => exact (ParameterSet.output_mem_withOutputs.mp h).2
    decide +kernel
  exact (agrees_iff _ .plain ps [] _ dynamicPair _ (text "x") (by decide +kernel) hfits
    dynamicPair_namesInputs).mpr (.inl (by decide +kernel))

/-- The output is reported with its mark although the batch of the input is set, and the engine
runs it with the batch. -/
theorem not_agrees_dynamic_output :
    let ps := ParameterSet.withOutputs [0] (by decide) (by decide)
    let dyn : DynamicAxis := { input := text "x", max := 4 }
    let c := dynamicPair.createExecutionContext.after .plain [setBatchFour]
    buildIos (some dyn) ps.entries [] = some dynamicPair.ios ∧
      NamesInputs dynamicPair.ios [setBatchFour] ∧
      c.getTensorShape (text "output_0") = toDims [-1] ∧
      engineDims dynamicPair c [setBatchFour] (text "output_0") = some [4] ∧
      ¬ Agrees dynamicPair (some dyn) c [setBatchFour] (text "output_0") := by
  intro ps dyn c
  have hshape : c.getTensorShape (text "output_0") = toDims [-1] := by decide +kernel
  have hengine : engineDims dynamicPair c [setBatchFour] (text "output_0") = some [4] := by
    decide +kernel
  refine ⟨by decide +kernel, dynamicPair_namesInputs, hshape, hengine, fun h => ?_⟩
  have hs := h.shape
  rw [hshape, hengine] at hs
  exact absurd hs (by decide +kernel)

end TrtShim.Shim
