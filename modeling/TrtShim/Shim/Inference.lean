import TrtShim.Backend.Device
import TrtShim.Shim.DynamicShapes

/-! # Static and dynamic engines of one model

A static engine has MIGraphX work on the caller's buffers, and a dynamic engine
copies to the host and back. Built of the same model and used alike, they leave the
same bytes in the device memory.
-/

namespace TrtShim.Shim

open Std Backend

section Named

variable {l l' : List (Bytes × Shape × Bytes)} {name : Bytes} {v : Shape × Bytes}

theorem named_eq_some_iff (h : (l.map Prod.fst).Nodup) : named l name = some v ↔ (name, v) ∈ l := by
  induction l with
  | nil => simp [named]
  | cons p l ih =>
    obtain ⟨k, w⟩ := p
    rw [List.map_cons, List.nodup_cons] at h
    rw [List.mem_cons, ← ih h.2, named, List.find?_cons]
    by_cases hk : k = name
    · have hnone : named l name ≠ some v := by
        intro hv
        obtain rfl := hk
        exact h.1 (List.mem_map.mpr ⟨_, (ih h.2).mp hv, rfl⟩)
      simp [hk, hnone, eq_comm]
    · simp [hk, Ne.symm hk, named]

/-- Values under distinct names are found in any order. -/
theorem named_perm (h : (l.map Prod.fst).Nodup) (hperm : l.Perm l') : named l = named l' := by
  have h' : (l'.map Prod.fst).Nodup := (hperm.map _).nodup_iff.mp h
  funext name
  ext v
  rw [named_eq_some_iff h, named_eq_some_iff h', hperm.mem_iff]

/-- Values that distinct names give are found in any order of the names. -/
theorem named_filterMap_perm {names names' : List Bytes}
    {value : Bytes → Option (Bytes × Shape × Bytes)} (hnames : names'.Nodup)
    (hperm : names.Perm names') (hvalue : ∀ name q, value name = some q → q.1 = name) :
    named (names.filterMap value) = named (names'.filterMap value) := by
  refine named_perm ?_ (hperm.filterMap _)
  have hnodup : names.Nodup := hperm.nodup_iff.mpr hnames
  refine List.pairwise_map.mpr (List.Pairwise.filterMap _ ?_ hnodup)
  intro name name' hne q hq q' hq' he
  exact hne (by rw [← hvalue name q hq, ← hvalue name' q' hq', he])

end Named

@[simp] theorem listedAs_datatype {dyn : Option DynamicAxis} {io : IOTensor} :
    (listedAs dyn io).datatype = io.datatype := by
  cases dyn with
  | none => rfl
  | some dyn =>
    simp only [listedAs, markDynamic]
    split <;> split <;> rfl

section SetShapes

variable {M : Migraphx} {ps : ParameterSet} {onnxNames : List Bytes} {dyn : Option DynamicAxis}
  {e : EngineImpl M} {devicePtrs : DevicePtrs} {concrete : ConcreteDims} {m : Mem}

/-- The model inputs, by their names. -/
def inputNames (ps : ParameterSet) : List Bytes := (inputsOf ps.params).map Prod.fst

/-- The shape of an input that the caller has set. -/
def setShape (M : Migraphx) (ps : ParameterSet) (concrete : ConcreteDims) (name : Bytes) :
    Option Shape := do
  let p ← (inputsOf ps.params).find? fun p => p.1 = name
  let dims ← concrete[name]?
  return M.shape p.2.type (dims.map Int64.toUInt64)

/-- An input that the caller has set, with what its buffer holds. -/
def setInput (M : Migraphx) (ps : ParameterSet) (devicePtrs : DevicePtrs)
    (concrete : ConcreteDims) (m : Mem) (name : Bytes) : Option (Bytes × Shape × Bytes) := do
  let ptr ← devicePtrs[name]?
  let shape ← setShape M ps concrete name
  return (name, shape, m.read ptr shape.bytes.toNat)

theorem inputNames_eq_filter :
    (ps.entries.map Prod.fst).filter (fun name => !isOutputParam name) = inputNames ps := by
  rw [List.filter_map, inputNames, ps.inputsOf_eq_filter]
  rfl

/-- An engine reads an input with the shape that was set, whatever its path. -/
theorem usedShape_of_set (hios : buildIos dyn ps.entries onnxNames = some e.ios) {p : Bytes × Shape}
    (hp : p.1 ∈ inputNames ps) (hset : p.1 ∈ concrete) :
    some (e.usedShape concrete p) = setShape M ps concrete p.1 := by
  obtain ⟨dims, hdims⟩ := OrderedMap.mem_iff_exists.mp hset
  obtain ⟨⟨name, s⟩, hs, hname⟩ := List.mem_map.mp hp
  obtain ⟨q, hq⟩ : ∃ q, (inputsOf ps.params).find? (fun q => q.1 = p.1) = some q := by
    refine Option.isSome_iff_exists.mp (List.find?_isSome.mpr ⟨_, hs, ?_⟩)
    exact decide_eq_true hname
  have hmem := List.mem_of_find?_eq_some hq
  have hqname : q.1 = p.1 := by simpa using List.find?_some hq
  have hinput : e.inputs[p.1]? = some (listedAs dyn (inputTensor q)) :=
    (inputs_of_build hios).mpr ⟨q.2, hqname ▸ mem_inputsOf.mp hmem, by rw [← hqname]⟩
  have hdatatype : e.inputDatatype p.1 = q.2.type := by
    rw [EngineImpl.inputDatatype, hinput]
    exact listedAs_datatype
  rw [setShape, hq, hdims]
  change _ = some (M.shape q.2.type (dims.map Int64.toUInt64))
  rw [EngineImpl.usedShape, EngineImpl.boundShape, EngineImpl.stageShape, hdims, hdatatype]
  split <;> rfl

/-- What an engine reads when every input has been set. -/
theorem callerInputs_of_set (hios : buildIos dyn ps.entries onnxNames = some e.ios)
    (hperm : (((M.getParameterShapes e.prog).map Prod.fst).filter
      fun name => !isOutputParam name).Perm (inputNames ps))
    (hset : ∀ name ∈ inputNames ps, name ∈ concrete) :
    (e.callerInputs devicePtrs concrete).read m =
      named ((inputNames ps).filterMap (setInput M ps devicePtrs concrete m)) := by
  have hfst : ∀ name q, setInput M ps devicePtrs concrete m name = some q → q.1 = name := by
    intro name q hq
    obtain ⟨_, _, hq⟩ := Option.bind_eq_some_iff.mp hq
    obtain ⟨_, _, hq⟩ := Option.bind_eq_some_iff.mp hq
    exact (Option.some.inj hq) ▸ rfl
  have hlist : (e.callerInputs devicePtrs concrete).map
      (fun i => (i.1, i.2.1, m.read i.2.2 i.2.1.bytes.toNat)) =
      (((M.getParameterShapes e.prog).map Prod.fst).filter
        fun name => !isOutputParam name).filterMap (setInput M ps devicePtrs concrete m) := by
    rw [EngineImpl.callerInputs, List.map_filterMap, List.filterMap_filter, List.filterMap_map]
    refine List.filterMap_congr fun p hp => ?_
    by_cases hout : isOutputParam p.1 = true
    · simp [hout]
    · have hmem : p.1 ∈ inputNames ps := by
        refine hperm.mem_iff.mp (List.mem_filter.mpr ⟨List.mem_map_of_mem hp, ?_⟩)
        rw [Bool.eq_false_iff.mpr hout]
        rfl
      have hshape := usedShape_of_set hios hmem (hset _ hmem)
      simp only [hout, Function.comp_apply, setInput, ← hshape]
      rcases devicePtrs[p.1]? with _ | ptr
      · rfl
      · rfl
  rw [InputBuffers.read, hlist]
  exact named_filterMap_perm ps.inputs_nodup hperm hfst

theorem isOutputParam_of_inputName {name : Bytes} (h : name ∈ inputNames ps) :
    isOutputParam name = false := by
  obtain ⟨p, hp, rfl⟩ := List.mem_map.mp h
  exact (ps.input_name p.1 p.2 (mem_inputsOf.mp hp)).1

theorem filter_inputNames :
    (inputNames ps).filter (fun name => !isOutputParam name) = inputNames ps :=
  List.filter_eq_self.mpr fun name hname => by rw [isOutputParam_of_inputName hname]; rfl

/-- A program that takes the inputs only has no output to bind. -/
theorem zeroCopy_of_inputNames
    (hperm : ((M.getParameterShapes e.prog).map Prod.fst).Perm (inputNames ps)) :
    e.zeroCopy = false := by
  rw [EngineImpl.zeroCopy, List.any_eq_false]
  intro p hp
  rw [isOutputParam_of_inputName (hperm.mem_iff.mp (List.mem_map_of_mem hp))]
  simp

/-- The outputs of a static and of a dynamic engine have the same buffers. -/
theorem callerOutputs_dynamic {e' : EngineImpl M} {axis : DynamicAxis}
    (hios : buildIos none ps.entries onnxNames = some e.ios)
    (hios' : buildIos (some axis) ps.entries onnxNames = some e'.ios) :
    e.callerOutputs devicePtrs = e'.callerOutputs devicePtrs := by
  have hmap : e.outputs.map (fun io => devicePtrs[io.name]?) =
      e'.outputs.map (fun io => devicePtrs[io.name]?) := by
    rw [EngineImpl.outputs_static hios, EngineImpl.outputs_dynamic hios', List.map_map,
      List.map_map]
    simp [Function.comp_def]
  ext ptrs
  rw [EngineImpl.callerOutputs, EngineImpl.callerOutputs, Lists.mapM_eq_some_iff, hmap,
    ← Lists.mapM_eq_some_iff]

/-- A context keeps a shape for every name that it received one for. -/
theorem mem_shapes_after {e : ShimEngine M} {hip : Hip} {calls : List ContextCall} {name : Bytes}
    (h : Lists.lastValue (shapeWrites calls) name ≠ none) :
    name ∈ (e.createExecutionContext.after hip calls).shapes := by
  obtain ⟨dims, hdims⟩ := Option.ne_none_iff_exists'.mp h
  rw [after_create]
  refine OrderedMap.mem_iff_exists.mpr ⟨dims, ?_⟩
  rw [OrderedMap.getElem?_fill, hdims, Option.some_or]

end SetShapes

end TrtShim.Shim
