import Mathlib.Data.List.Sort
import TrtShim.Backend.Basic
import TrtShim.Bytes.Decimal
import TrtShim.Containers.Lists
import TrtShim.Containers.OrderedMap

/-! # Splitting program parameters into inputs and outputs

A program compiled without offload copies takes its outputs as parameters whose
names carry an index. `splitIo` reads a listing of the parameters; `ParameterSet`
is what such a listing stands for. The inputs come out in listing order and the
outputs in the order of their indices.
-/

namespace TrtShim.Backend

open Std

/-- `kOutputPrefix`. -/
def kOutputPrefix : Bytes := text "main:#output_"

/-- `is_output_param`. -/
def isOutputParam (name : Bytes) : Bool := kOutputPrefix.isPrefixOf name

/-- `output_index`; no value stands for an exception of `std::stoi`. -/
def outputIndex (name : Bytes) : Option ℤ := Decimal.stoi (name.drop kOutputPrefix.length)

/-- `bytes_per_elem`. -/
def bytesPerElem (s : Shape) : UInt64 := if s.elements ≠ 0 then s.bytes / s.elements else 0

/-- `io_from_shape`. -/
def ioFromShape (name : Bytes) (s : Shape) (dir : IODir) : IOTensor where
  name := name
  dims := s.lengths.map UInt64.toInt64
  datatype := s.type
  bytesPerElem := bytesPerElem s
  dir := dir

/-- The name `"output_" + std::to_string(idx)`. -/
def fallbackName (idx : ℤ) : Bytes := text "output_" ++ Decimal.toString idx

/-- The name that `split_io` gives to the output with this index. -/
def realName (onnxNames : List Bytes) (idx : ℤ) : Bytes :=
  match onnxNames[(idx % 2 ^ 64).toNat]? with
  | some name => if name ≠ [] then name else fallbackName idx
  | none => fallbackName idx

theorem realName_natCast (onnxNames : List Bytes) {k : ℕ} (hk : k < 2 ^ 31) :
    realName onnxNames k = match onnxNames[k]? with
      | some name => if name ≠ [] then name else fallbackName k
      | none => fallbackName k := by
  have hmod : ((k : ℤ) % 2 ^ 64).toNat = k := by omega
  rw [realName, hmod]
  rfl

/-- The body of the loop of `split_io` over `shapes.names()`. -/
def splitStep (onnxNames : List Bytes) :
    List IOTensor × TreeMap ℤ IOTensor → Bytes × Shape → Option (List IOTensor × TreeMap ℤ IOTensor)
  | (inputs, outs), (name, s) =>
    if isOutputParam name then do
      let idx ← outputIndex name
      return (inputs, outs.insert idx (ioFromShape (realName onnxNames idx) s .kOutput))
    else
      return (inputs ++ [ioFromShape name s .kInput], outs)

/-- `split_io` on a listing of the parameters, starting from no inputs and no outputs. -/
def splitIo (shapes : List (Bytes × Shape)) (onnxNames : List Bytes) :
    Option (List IOTensor × List IOTensor) := do
  let (inputs, outs) ← shapes.foldlM (splitStep onnxNames) ([], ∅)
  return (inputs, outs.toList.map Prod.snd)

/-- The tensors collected have the directions of their lists. -/
structure Directed (s : List IOTensor × TreeMap ℤ IOTensor) : Prop where
  inputs : ∀ io ∈ s.1, io.dir = .kInput
  outputs : ∀ (k : ℤ) (io : IOTensor), s.2[k]? = some io → io.dir = .kOutput

theorem splitStep_directed {onnxNames : List Bytes} {s s' : List IOTensor × TreeMap ℤ IOTensor}
    {p : Bytes × Shape} (hs : Directed s) (h : splitStep onnxNames s p = some s') :
    Directed s' := by
  obtain ⟨inputs, outs⟩ := s
  obtain ⟨name, shape⟩ := p
  rw [splitStep] at h
  split at h
  · obtain ⟨idx, -, hinsert⟩ := Option.bind_eq_some_iff.mp h
    obtain rfl := Option.some.inj hinsert
    refine ⟨hs.inputs, fun k io hk => ?_⟩
    rw [TreeMap.getElem?_insert] at hk
    split at hk
    · rw [← Option.some.inj hk]
      rfl
    · exact hs.outputs k io hk
  · obtain rfl := Option.some.inj h
    refine ⟨fun io hio => ?_, hs.outputs⟩
    rcases List.mem_append.mp hio with hio | hio
    · exact hs.inputs io hio
    · rw [List.mem_singleton.mp hio]
      rfl

/-- `split_io` gives every tensor the direction of its list. -/
theorem splitIo_dir {shapes : List (Bytes × Shape)} {onnxNames : List Bytes}
    {inputs outputs : List IOTensor} (h : splitIo shapes onnxNames = some (inputs, outputs)) :
    (∀ io ∈ inputs, io.dir = .kInput) ∧ ∀ io ∈ outputs, io.dir = .kOutput := by
  obtain ⟨⟨inputs', outs⟩, hfold, hsplit⟩ := Option.bind_eq_some_iff.mp h
  obtain ⟨rfl, rfl⟩ := Prod.mk.inj (Option.some.inj hsplit)
  have hstart : Directed ([], ∅) := ⟨by simp, by simp⟩
  have hend : Directed (inputs', outs) :=
    Lists.foldlM_invariant hstart (fun _ _ _ hs hstep => splitStep_directed hs hstep) hfold
  refine ⟨hend.inputs, List.forall_mem_map.mpr fun p hp => ?_⟩
  exact hend.outputs p.1 p.2 (TreeMap.mem_toList_iff_getElem?_eq_some.mp hp)

/-! ## What a listing stands for -/

/-- A program parameter: a model input, or the buffer of the output with an index. -/
inductive Param where
  | input (name : Bytes)
  | output (k : ℕ)
  deriving DecidableEq

/-- The name under which the program lists a parameter. -/
def Param.name : Param → Bytes
  | .input name => name
  | .output k => kOutputPrefix ++ Decimal.digits k

/-- The parameters of a program in the order of a listing. Names are C strings, so they contain
no zero byte, and the index of an output is a non-negative `int`. -/
structure ParameterSet where
  params : List (Param × Shape)
  nodup : (params.map Prod.fst).Nodup
  input_name : ∀ name s, (.input name, s) ∈ params → isOutputParam name = false ∧ 0 ∉ name
  output_lt : ∀ k s, (.output k, s) ∈ params → k < 2 ^ 31

/-- The model inputs among the parameters. -/
def inputsOf (params : List (Param × Shape)) : List (Bytes × Shape) :=
  params.filterMap fun
    | (.input name, s) => some (name, s)
    | (.output _, _) => none

/-- The outputs among the parameters, with their indices. -/
def outputsOf (params : List (Param × Shape)) : List (ℕ × Shape) :=
  params.filterMap fun
    | (.input _, _) => none
    | (.output k, s) => some (k, s)

theorem mem_inputsOf {params : List (Param × Shape)} {name : Bytes} {s : Shape} :
    (name, s) ∈ inputsOf params ↔ (.input name, s) ∈ params := by
  simp only [inputsOf, List.mem_filterMap]
  constructor
  · rintro ⟨⟨p, s'⟩, hm, he⟩
    cases p <;> simp_all
  · exact fun h => ⟨_, h, rfl⟩

theorem mem_outputsOf {params : List (Param × Shape)} {k : ℕ} {s : Shape} :
    (k, s) ∈ outputsOf params ↔ (.output k, s) ∈ params := by
  simp only [outputsOf, List.mem_filterMap]
  constructor
  · rintro ⟨⟨p, s'⟩, hm, he⟩
    cases p <;> simp_all
  · exact fun h => ⟨_, h, rfl⟩

/-- The IO tensor that `split_io` makes of an input. -/
def inputTensor (p : Bytes × Shape) : IOTensor := ioFromShape p.1 p.2 .kInput

/-- The IO tensor that `split_io` makes of an output. -/
def outputTensor (onnxNames : List Bytes) (p : ℕ × Shape) : IOTensor :=
  ioFromShape (realName onnxNames p.1) p.2 .kOutput

namespace ParameterSet

/-- What `names()` and `operator[]` of the program's parameter shapes list. -/
def entries (ps : ParameterSet) : List (Bytes × Shape) := ps.params.map fun p => (p.1.name, p.2)

/-- The outputs in the order of their indices. -/
def outputs (ps : ParameterSet) : List (ℕ × Shape) :=
  (outputsOf ps.params).insertionSort fun a b => a.1 ≤ b.1

end ParameterSet

theorem isOutputParam_output (k : ℕ) : isOutputParam (Param.output k).name = true := by
  simp [isOutputParam, Param.name]

theorem outputIndex_output {k : ℕ} (h : k < 2 ^ 31) :
    outputIndex (Param.output k).name = some (k : ℤ) := by
  rw [outputIndex, Param.name, List.drop_left, Decimal.stoi_digits h]

theorem foldlM_splitStep (onnxNames : List Bytes) (params : List (Param × Shape))
    (hin : ∀ name s, (.input name, s) ∈ params → isOutputParam name = false)
    (hout : ∀ k s, (.output k, s) ∈ params → k < 2 ^ 31)
    (inputs : List IOTensor) (outs : TreeMap ℤ IOTensor) :
    (params.map fun p => (p.1.name, p.2)).foldlM (splitStep onnxNames) (inputs, outs) =
      some (inputs ++ (inputsOf params).map inputTensor,
        OrderedMap.fill outs
          ((outputsOf params).map fun p => ((p.1 : ℤ), outputTensor onnxNames p))) := by
  induction params generalizing inputs outs with
  | nil => simp [inputsOf, outputsOf, OrderedMap.fill]
  | cons p params ih =>
    have ih' := ih (fun name s h => hin name s (List.mem_cons_of_mem _ h))
      fun k s h => hout k s (List.mem_cons_of_mem _ h)
    rw [List.map_cons, List.foldlM_cons]
    obtain ⟨p | k, s⟩ := p
    · have hstep : splitStep onnxNames (inputs, outs) ((Param.input p).name, s) =
          some (inputs ++ [inputTensor (p, s)], outs) := by
        simp [splitStep, Param.name, hin p s List.mem_cons_self, inputTensor]
      rw [hstep, Option.bind_eq_bind, Option.bind_some, ih']
      simp [inputsOf, outputsOf]
    · have hstep : splitStep onnxNames (inputs, outs) ((Param.output k).name, s) =
          some (inputs, outs.insert (k : ℤ) (outputTensor onnxNames (k, s))) := by
        simp [splitStep, isOutputParam_output, outputIndex_output (hout k s List.mem_cons_self),
          outputTensor]
      rw [hstep, Option.bind_eq_bind, Option.bind_some, ih']
      simp [inputsOf, outputsOf, OrderedMap.fill]

namespace ParameterSet

variable (ps : ParameterSet)

theorem mem_entries {name : Bytes} {s : Shape} :
    (name, s) ∈ ps.entries ↔ ∃ p, (p, s) ∈ ps.params ∧ p.name = name := by
  simp only [entries, List.mem_map, Prod.mk.injEq]
  constructor
  · rintro ⟨⟨p, s'⟩, hm, rfl, rfl⟩
    exact ⟨p, hm, rfl⟩
  · rintro ⟨p, hm, rfl⟩
    exact ⟨(p, s), hm, rfl, rfl⟩

theorem mem_outputs {k : ℕ} {s : Shape} : (k, s) ∈ ps.outputs ↔ (.output k, s) ∈ ps.params := by
  rw [outputs, List.mem_insertionSort, mem_outputsOf]

theorem inputs_nodup : ((inputsOf ps.params).map Prod.fst).Nodup := by
  refine Lists.nodup_filterMap_keys (g := Param.input) ?_ ps.nodup
  rintro ⟨name | k, s⟩ q hq <;> cases hq
  rfl

theorem outputs_nodup : ((outputsOf ps.params).map Prod.fst).Nodup := by
  refine Lists.nodup_filterMap_keys (g := Param.output) ?_ ps.nodup
  rintro ⟨name | k, s⟩ q hq <;> cases hq
  rfl

/-- The indices of the outputs increase along the list. -/
theorem outputs_pairwise : ps.outputs.Pairwise fun a b => a.1 < b.1 := by
  have hn : (outputsOf ps.params).Pairwise fun a b => a.1 ≠ b.1 :=
    List.pairwise_map.mp ps.outputs_nodup
  have hs : ps.outputs.Pairwise fun a b => a.1 ≤ b.1 := List.pairwise_insertionSort _ _
  have hn' : ps.outputs.Pairwise fun a b => a.1 ≠ b.1 :=
    ((List.perm_insertionSort _ _).pairwise_iff fun h => Ne.symm h).mpr hn
  exact hs.imp₂ (fun _ _ hle hne => Nat.lt_of_le_of_ne hle hne) hn'

theorem length_outputs : ps.outputs.length = (outputsOf ps.params).length :=
  List.length_insertionSort _ _

/-- Indices without a gap are the places of their outputs. -/
theorem getElem?_outputs
    (hlt : ∀ k s, (.output k, s) ∈ ps.params → k < (outputsOf ps.params).length) {k : ℕ}
    {s : Shape} (hk : (.output k, s) ∈ ps.params) : ps.outputs[k]? = some (k, s) :=
  Lists.getElem?_of_pairwise_lt ps.outputs_pairwise
    (fun p hp => ps.length_outputs ▸ hlt p.1 p.2 (ps.mem_outputs.mp hp)) (ps.mem_outputs.mpr hk)

/-- Distinct parameters have distinct names. -/
theorem name_injOn {p p' : Param} {s s' : Shape} (h : (p, s) ∈ ps.params)
    (h' : (p', s') ∈ ps.params) (he : p.name = p'.name) : p = p' := by
  cases p with
  | input name =>
    cases p' with
    | input name' => exact congrArg _ he
    | output k =>
      have hf := (ps.input_name name s h).1
      change name = (Param.output k).name at he
      rw [he, isOutputParam_output] at hf
      exact absurd hf (by decide)
  | output k =>
    cases p' with
    | input name =>
      have hf := (ps.input_name name s' h').1
      change (Param.output k).name = name at he
      rw [← he, isOutputParam_output] at hf
      exact absurd hf (by decide)
    | output k' => exact congrArg _ (Decimal.digits_injective (List.append_cancel_left he))

theorem names_nodup : (ps.entries.map Prod.fst).Nodup := by
  have hd := List.pairwise_map.mp ps.nodup
  rw [entries, List.map_map]
  refine List.pairwise_map.mpr (hd.imp_of_mem fun {a b} ha hb hne he => hne ?_)
  exact ps.name_injOn ha hb he

/-- `split_io` lists the inputs as they come and the outputs by their indices. -/
theorem splitIo_entries (onnxNames : List Bytes) :
    splitIo ps.entries onnxNames = some ((inputsOf ps.params).map inputTensor,
      ps.outputs.map (outputTensor onnxNames)) := by
  have hin name s (h : (.input name, s) ∈ ps.params) : isOutputParam name = false :=
    (ps.input_name name s h).1
  have hfill : (OrderedMap.fill (∅ : TreeMap ℤ IOTensor)
      ((outputsOf ps.params).map fun p => ((p.1 : ℤ), outputTensor onnxNames p))).toList =
      ps.outputs.map fun p => ((p.1 : ℤ), outputTensor onnxNames p) := by
    refine OrderedMap.toList_fill ((List.perm_insertionSort _ _).map _) ?_
    refine List.pairwise_map.mpr (ps.outputs_pairwise.imp fun hlt => ?_)
    exact Std.compare_eq_lt.mpr (Int.ofNat_lt.mpr hlt)
  rw [splitIo, entries, foldlM_splitStep onnxNames ps.params hin ps.output_lt]
  simp [hfill]

theorem mem_outputs_iff_entries {k : ℕ} {s : Shape} :
    (k, s) ∈ ps.outputs ↔ ((Param.output k).name, s) ∈ ps.entries := by
  rw [ps.mem_outputs, ps.mem_entries]
  constructor
  · exact fun h => ⟨_, h, rfl⟩
  · rintro ⟨p, hp, hname⟩
    cases p with
    | input name =>
      have hf := (ps.input_name name s hp).1
      change name = _ at hname
      rw [hname, isOutputParam_output] at hf
      exact absurd hf (by decide)
    | output k' => exact Decimal.digits_injective (List.append_cancel_left hname) ▸ hp

/-- The inputs are the entries of the listing that are no outputs. -/
theorem inputsOf_eq_filter :
    inputsOf ps.params = ps.entries.filter fun p => !isOutputParam p.1 := by
  have hin := fun name s h => (ps.input_name name s h).1
  rw [entries]
  generalize ps.params = params at hin
  induction params with
  | nil => rfl
  | cons p params ih =>
    have ih' := ih fun name s h => hin name s (List.mem_cons_of_mem _ h)
    rw [List.map_cons, List.filter_cons, ← ih']
    obtain ⟨name | k, s⟩ := p
    · simp [inputsOf, hin name s List.mem_cons_self, Param.name]
    · simp [inputsOf, isOutputParam_output]

/-- Listings of the same parameters have the same outputs. -/
theorem outputs_eq_of_perm {ps ps' : ParameterSet} (h : ps'.entries.Perm ps.entries) :
    ps'.outputs = ps.outputs := by
  have hnodup (ps : ParameterSet) : ps.outputs.Nodup :=
    ps.outputs_pairwise.imp fun hlt he => Nat.ne_of_lt hlt (congrArg Prod.fst he)
  have hperm : ps'.outputs.Perm ps.outputs := by
    rw [List.perm_ext_iff_of_nodup (hnodup ps') (hnodup ps)]
    rintro ⟨k, s⟩
    rw [mem_outputs_iff_entries, mem_outputs_iff_entries, h.mem_iff]
  apply hperm.eq_of_pairwise _ ps'.outputs_pairwise ps.outputs_pairwise
  intro a b _ _ hab hba
  omega

end ParameterSet

/-- The inputs are the parameters of the listing that are no outputs, once each and in the order of
the listing. The outputs are one for each output parameter, by increasing index. -/
structure SplitsListing (entries : List (Bytes × Shape)) (inputs outputs : List IOTensor) :
    Prop where
  inputs_eq : inputs = (entries.filter fun p => !isOutputParam p.1).map inputTensor
  inputs_nodup : (inputs.map fun io => io.name).Nodup
  outputs_eq : ∃ ks : List ℕ, ks.Pairwise (· < ·) ∧
    (∀ k, k ∈ ks ↔ (Param.output k).name ∈ entries.map Prod.fst) ∧
    List.Forall₂ (fun k io => ∃ s, ((Param.output k).name, s) ∈ entries ∧ io.dir = .kOutput ∧
      io.dims = s.lengths.map UInt64.toInt64 ∧ io.datatype = s.type) ks outputs

theorem ParameterSet.splitsListing (ps : ParameterSet) (onnxNames : List Bytes) :
    SplitsListing ps.entries ((inputsOf ps.params).map inputTensor)
      (ps.outputs.map (outputTensor onnxNames)) where
  inputs_eq := by rw [ps.inputsOf_eq_filter]
  inputs_nodup := by
    rw [List.map_map]
    exact ps.inputs_nodup
  outputs_eq := by
    refine ⟨ps.outputs.map Prod.fst, List.pairwise_map.mpr ps.outputs_pairwise, ?_, ?_⟩
    · intro k
      simp only [List.mem_map, Prod.exists, exists_and_right, exists_eq_right,
        ps.mem_outputs_iff_entries]
    · rw [List.forall₂_map_left_iff, List.forall₂_map_right_iff, List.forall₂_same]
      exact fun p hp => ⟨p.2, ps.mem_outputs_iff_entries.mp hp, rfl, rfl, rfl⟩

/-- `split_io` neither loses nor invents a tensor, and from two listings of the same parameters it
makes the same outputs and the same inputs in another order. -/
theorem splitIo_listing (ps ps' : ParameterSet) (onnxNames : List Bytes)
    (h : ps'.entries.Perm ps.entries) :
    ∃ inputs inputs' outputs, splitIo ps.entries onnxNames = some (inputs, outputs) ∧
      splitIo ps'.entries onnxNames = some (inputs', outputs) ∧
      SplitsListing ps.entries inputs outputs ∧ inputs'.Perm inputs := by
  refine ⟨_, (inputsOf ps'.params).map inputTensor, _, ps.splitIo_entries onnxNames, ?_,
    ps.splitsListing onnxNames, ?_⟩
  · rw [ps'.splitIo_entries, ParameterSet.outputs_eq_of_perm h]
  · rw [ps.inputsOf_eq_filter, ps'.inputsOf_eq_filter]
    exact (h.filter _).map _

/-- The outputs come out by number although their names are listed in string order. -/
theorem splitIo_listing_ten :
    let s : Shape := ⟨4, [2], 2, 8⟩
    let listing : List (Param × Shape) := [(.output 10, s), (.output 2, s), (.input (text "x"), s)]
    ∃ ps ps' : ParameterSet, ps.params = listing ∧ ps'.params = listing.reverse ∧
      ∃ inputs inputs' outputs, splitIo ps.entries [] = some (inputs, outputs) ∧
        splitIo ps'.entries [] = some (inputs', outputs) ∧
        SplitsListing ps.entries inputs outputs ∧ inputs'.Perm inputs := by
  intro s listing
  have hin (name : Bytes) (s' : Shape) (h : (Param.input name, s') ∈ listing) :
      isOutputParam name = false ∧ 0 ∉ name := by
    obtain ⟨rfl, -⟩ : name = text "x" ∧ s' = s := by simpa [listing] using h
    decide
  have hout (k : ℕ) (s' : Shape) (h : (Param.output k, s') ∈ listing) : k < 2 ^ 31 := by
    rcases (by simpa [listing] using h : k = 10 ∧ s' = s ∨ k = 2 ∧ s' = s) with h | h <;> omega
  let ps : ParameterSet := ⟨listing, by decide, hin, hout⟩
  let ps' : ParameterSet := ⟨listing.reverse, by decide,
    fun name s' h => hin name s' (List.mem_reverse.mp h),
    fun k s' h => hout k s' (List.mem_reverse.mp h)⟩
  exact ⟨ps, ps', rfl, rfl, splitIo_listing ps ps' [] ((List.reverse_perm listing).map _)⟩

end TrtShim.Backend
