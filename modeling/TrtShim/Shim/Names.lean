import TrtShim.Backend.ZeroCopy
import TrtShim.Shim.Engine

/-! # The names of the IO tensors

The interface is positional but the run path looks buffers up by name. The two
agree when the IO tensors have distinct names that are C strings. Real output
names are taken from the model, and an output without one gets a synthetic name
that may clash with them.
-/

namespace TrtShim.Shim

open Std Backend

/-- The name of an output in the model, unless it is missing or empty. -/
def givenName (onnxNames : List Bytes) (k : ℕ) : Option Bytes :=
  (onnxNames[k]?).filter (· ≠ [])

theorem realName_eq (onnxNames : List Bytes) {k : ℕ} (hk : k < 2 ^ 31) :
    realName onnxNames k = (givenName onnxNames k).getD (fallbackName k) := by
  rw [realName_natCast onnxNames hk, givenName]
  cases onnxNames[k]? with
  | none => rfl
  | some name => by_cases h : name = [] <;> simp [Option.filter, h]

theorem fallbackName_injective {k k' : ℕ} (h : fallbackName k = fallbackName k') : k = k' :=
  Decimal.digits_injective (List.append_cancel_left h)

theorem zero_notMem_fallbackName (k : ℕ) : 0 ∉ fallbackName k := by
  intro h
  rcases List.mem_append.mp h with h | h
  · exact absurd h (by decide)
  · exact absurd (Decimal.isDigit_of_mem_digits h) (by decide)

theorem cStr_eq_self {s : Bytes} : cStr s = s ↔ 0 ∉ s := by
  rw [cStr, List.takeWhile_eq_self_iff]
  simp only [decide_eq_true_eq, ne_eq]
  exact ⟨fun h hm => h 0 hm rfl, fun h b hb hz => h (hz ▸ hb)⟩

/-- Bindings, and lookups through the interface, reach the IO tensor at each position. -/
structure Positional {M : Migraphx} (e : ShimEngine M) : Prop where
  nodup : (e.ios.map fun io => io.name).Nodup
  bound : ∀ bindings i io, e.ios[i]? = some io →
    (bindingPtrs e.ios bindings)[io.name]? = some (bindings i)
  found : ∀ i < e.ios.length, (e.getIOTensorName (Int32.ofNat i)).bind e.find = some i

section Positional

variable {M : Migraphx} {e : ShimEngine M} {i : ℕ} {io : IOTensor}

theorem bindingPtrs_of_nodup {ios : List IOTensor} (h : (ios.map fun io => io.name).Nodup)
    (bindings : ℕ → Ptr) (hi : ios[i]? = some io) :
    (bindingPtrs ios bindings)[io.name]? = some (bindings i) := by
  refine OrderedMap.getElem?_fill_of_mem ?_ ?_ _
  · have hmap : ios.zipIdx.map (fun p => p.1.name) = ios.map fun io => io.name := by
      conv_rhs => rw [← List.zipIdx_map_fst 0 ios, List.map_map]
      rfl
    rw [List.map_map]
    exact hmap ▸ h
  · exact List.mem_map.mpr ⟨(io, i), List.mk_mem_zipIdx_iff_getElem?.mpr hi, rfl⟩

theorem find_of_nodup (h : (e.ios.map fun io => io.name).Nodup) (hi : e.ios[i]? = some io) :
    e.find io.name = some i := by
  obtain ⟨hlt, rfl⟩ := List.getElem?_eq_some_iff.mp hi
  refine List.findIdx?_eq_some_iff_getElem.mpr ⟨hlt, by simp, fun j hj hname => ?_⟩
  have hne := List.pairwise_iff_getElem.mp h j i (by simp; omega) (by simpa using hlt) hj
  simp only [List.getElem_map] at hne
  exact hne (of_decide_eq_true hname)

theorem name_of_find {name : Bytes} (h : e.find name = some i) (hi : e.ios[i]? = some io) :
    io.name = name := by
  obtain ⟨hlt, hname, -⟩ := List.findIdx?_eq_some_iff_getElem.mp h
  obtain ⟨_, rfl⟩ := List.getElem?_eq_some_iff.mp hi
  exact of_decide_eq_true hname

theorem getIOTensorName_of_lt (hlen : e.ios.length < 2 ^ 31) (hi : e.ios[i]? = some io) :
    e.getIOTensorName (Int32.ofNat i) = some (cStr io.name) := by
  have hlt := (List.getElem?_eq_some_iff.mp hi).1
  have hi' : (Int32.ofNat i).toInt = i := Int32.toInt_ofNat_of_lt (by omega)
  have hlen' := Int32.toInt_ofNat_of_lt hlen
  have hnat : (Int32.ofNat i).toNatClampNeg = i := by
    rw [Int32.toNatClampNeg, hi', Int.toNat_natCast]
  have hrange : 0 ≤ Int32.ofNat i ∧ Int32.ofNat i < e.getNbIOTensors := by
    rw [Int32.le_iff_toInt_le, Int32.lt_iff_toInt_lt, ShimEngine.getNbIOTensors, hi', hlen']
    exact ⟨Int.natCast_nonneg i, by omega⟩
  rw [ShimEngine.getIOTensorName, if_pos hrange, hnat, hi, Option.map_some]

/-- An `int32_t` cannot number more IO tensors than this. -/
theorem length_lt_of_found
    (h : ∀ i < e.ios.length, (e.getIOTensorName (Int32.ofNat i)).bind e.find = some i) :
    e.ios.length < 2 ^ 31 := by
  by_contra hge
  have hneg : Int32.ofNat (2 ^ 31) < 0 := by decide
  rcases Nat.eq_or_lt_of_le (Nat.le_of_not_lt hge) with heq | hlt
  · have hnone : e.getIOTensorName (Int32.ofNat 0) = none := by
      refine if_neg fun hr => ?_
      rw [ShimEngine.getNbIOTensors, ← heq] at hr
      exact absurd (Int32.lt_trans hr.2 hneg) (by decide)
    exact absurd (h 0 (by omega)) (by rw [hnone]; simp)
  · have hnone : e.getIOTensorName (Int32.ofNat (2 ^ 31)) = none :=
      if_neg fun hr => absurd (Int32.lt_of_le_of_lt hr.1 hneg) (by decide)
    exact absurd (h (2 ^ 31) hlt) (by rw [hnone]; simp)

theorem positional_iff : Positional e ↔ (e.ios.map fun io => io.name).Nodup ∧
    e.ios.length < 2 ^ 31 ∧ ∀ io ∈ e.ios, 0 ∉ io.name := by
  constructor
  · intro h
    have hlen := length_lt_of_found h.found
    refine ⟨h.nodup, hlen, fun io hio => cStr_eq_self.mp ?_⟩
    obtain ⟨i, hi⟩ := List.getElem?_of_mem hio
    have hf := h.found i (List.getElem?_eq_some_iff.mp hi).1
    rw [getIOTensorName_of_lt hlen hi, Option.bind_some] at hf
    exact (name_of_find hf hi).symm
  · rintro ⟨hnd, hlen, hzero⟩
    refine ⟨hnd, fun bindings i io hi => bindingPtrs_of_nodup hnd bindings hi, fun i hi => ?_⟩
    have hio : e.ios[i]? = some e.ios[i] := List.getElem?_eq_getElem hi
    rw [getIOTensorName_of_lt hlen hio, Option.bind_some,
      cStr_eq_self.mpr (hzero _ (List.getElem_mem hi))]
    exact find_of_nodup hnd hio

end Positional

section Static

variable {ps : ParameterSet} {onnxNames : List Bytes}

/-- The condition on output names: a name given by the model is a C string, and the synthetic name
of an output without one is no input name and not given to another output. -/
def NamesApart (ps : ParameterSet) (onnxNames : List Bytes) : Prop :=
  ∀ k s, (.output k, s) ∈ ps.params →
    match givenName onnxNames k with
    | some name => 0 ∉ name
    | none => (∀ s', (.input (fallbackName k), s') ∉ ps.params) ∧
        ∀ k' s', (.output k', s') ∈ ps.params → givenName onnxNames k' ≠ some (fallbackName k)

theorem names_static {ios : List IOTensor}
    (hios : buildIos none ps.entries onnxNames = some ios) :
    ios.map (fun io => io.name) = (inputsOf ps.params).map Prod.fst ++
      ps.outputs.map fun p => realName onnxNames p.1 := by
  rw [buildIos_static, Option.some.injEq] at hios
  simp [← hios, inputTensor, outputTensor, ioFromShape, Function.comp_def]

/-- The names of the outputs in the model are distinct and no input names. -/
structure Given (ps : ParameterSet) (onnxNames : List Bytes) : Prop where
  injective : ∀ k k' name, givenName onnxNames k = some name →
    givenName onnxNames k' = some name → k = k'
  not_input : ∀ k name, givenName onnxNames k = some name → ∀ s, (.input name, s) ∉ ps.params

theorem zero_notMem_of_namesApart (h : NamesApart ps onnxNames) {k : ℕ} {s : Shape}
    (hk : (.output k, s) ∈ ps.params) : 0 ∉ realName onnxNames k := by
  have hc := h k s hk
  rw [realName_eq onnxNames (ps.output_lt k s hk)]
  cases hg : givenName onnxNames k with
  | some name => rw [hg] at hc; exact hc
  | none => exact zero_notMem_fallbackName k

theorem input_ne_of_namesApart (hgiven : Given ps onnxNames) (h : NamesApart ps onnxNames)
    {name : Bytes} {k : ℕ} {s s' : Shape} (hin : (.input name, s) ∈ ps.params)
    (hk : (.output k, s') ∈ ps.params) : name ≠ realName onnxNames k := by
  rintro rfl
  have hc := h k s' hk
  rw [realName_eq onnxNames (ps.output_lt k s' hk)] at hin
  cases hg : givenName onnxNames k with
  | some name => rw [hg] at hin; exact hgiven.not_input k name hg s hin
  | none => rw [hg] at hin hc; exact hc.1 s hin

theorem realName_inj_of_namesApart (hgiven : Given ps onnxNames) (h : NamesApart ps onnxNames)
    {k k' : ℕ} {s s' : Shape} (hk : (.output k, s) ∈ ps.params)
    (hk' : (.output k', s') ∈ ps.params) (he : realName onnxNames k = realName onnxNames k') :
    k = k' := by
  have hc := h k s hk
  have hc' := h k' s' hk'
  rw [realName_eq onnxNames (ps.output_lt k s hk),
    realName_eq onnxNames (ps.output_lt k' s' hk')] at he
  cases hg : givenName onnxNames k with
  | some name =>
    cases hg' : givenName onnxNames k' with
    | some name' =>
      rw [hg, hg'] at he
      obtain rfl : name = name' := he
      exact hgiven.injective k k' name hg hg'
    | none =>
      rw [hg, hg'] at he
      rw [hg'] at hc'
      exact absurd (hg.trans (congrArg some he)) (hc'.2 k s hk)
  | none =>
    rw [hg] at he hc
    cases hg' : givenName onnxNames k' with
    | some name' =>
      rw [hg'] at he
      exact absurd (hg'.trans (congrArg some he.symm)) (hc.2 k' s' hk')
    | none =>
      rw [hg'] at he
      exact fallbackName_injective he

theorem nodup_names_iff (hgiven : Given ps onnxNames) :
    ((inputsOf ps.params).map Prod.fst ++
        ps.outputs.map fun p => realName onnxNames p.1).Nodup ∧
      (∀ p ∈ ps.outputs, 0 ∉ realName onnxNames p.1) ↔ NamesApart ps onnxNames := by
  rw [List.nodup_append]
  constructor
  · rintro ⟨⟨-, hout, hdisj⟩, hzero⟩ k s hk
    have hreal := realName_eq onnxNames (ps.output_lt k s hk)
    have hmem := List.mem_map_of_mem (f := fun p => realName onnxNames p.1)
      (ps.mem_outputs.mpr hk)
    cases hg : givenName onnxNames k with
    | some name =>
      have hz := hzero _ (ps.mem_outputs.mpr hk)
      rwa [hreal, hg] at hz
    | none =>
      rw [hg, Option.getD_none] at hreal
      constructor
      · intro s' hin
        exact hdisj _ (List.mem_map_of_mem (mem_inputsOf.mpr hin)) _ hmem hreal.symm
      · intro k' s' hk' hg'
        have hreal' := realName_eq onnxNames (ps.output_lt k' s' hk')
        rw [hg', Option.getD_some] at hreal'
        have he := List.inj_on_of_nodup_map hout (ps.mem_outputs.mpr hk)
          (ps.mem_outputs.mpr hk') (hreal.trans hreal'.symm)
        obtain rfl : k = k' := congrArg Prod.fst he
        rw [hg] at hg'
        exact absurd hg' (by simp)
  · intro h
    refine ⟨⟨ps.inputs_nodup, ?_, ?_⟩, fun p hp => ?_⟩
    · refine List.pairwise_map.mpr (ps.outputs_pairwise.imp_of_mem fun {a b} ha hb hlt he => ?_)
      have := realName_inj_of_namesApart hgiven h (ps.mem_outputs.mp ha) (ps.mem_outputs.mp hb) he
      omega
    · intro name hname name' hname'
      obtain ⟨⟨name, s⟩, hin, rfl⟩ := List.mem_map.mp hname
      obtain ⟨⟨k, s'⟩, hk, rfl⟩ := List.mem_map.mp hname'
      exact input_ne_of_namesApart hgiven h (mem_inputsOf.mp hin) (ps.mem_outputs.mp hk)
    · exact zero_notMem_of_namesApart h (ps.mem_outputs.mp hp)

/-- The interface of a static engine is positional exactly when an `int32_t` numbers its IO
tensors, the names that the model gives are C strings, and no synthetic name is taken. -/
theorem positional_static_iff (M : Migraphx) (ps : ParameterSet) (onnxNames : List Bytes)
    (e : ShimEngine M) (hios : buildIos none ps.entries onnxNames = some e.ios)
    (hgiven : Given ps onnxNames) :
    Positional e ↔ e.ios.length < 2 ^ 31 ∧ NamesApart ps onnxNames := by
  have hzero : (∀ io ∈ e.ios, 0 ∉ io.name) ↔ ∀ p ∈ ps.outputs, 0 ∉ realName onnxNames p.1 := by
    constructor
    · intro h p hp
      exact h _ ((mem_ios hios).mpr (.inr ⟨p.1, p.2, ps.mem_outputs.mp hp, rfl⟩))
    · intro h io hio
      rcases (mem_ios hios).mp hio with ⟨name, s, hin, rfl⟩ | ⟨k, s, hk, rfl⟩
      · exact (ps.input_name name s hin).2
      · exact h (k, s) (ps.mem_outputs.mpr hk)
  rw [positional_iff, names_static hios, hzero, ← nodup_names_iff hgiven]
  tauto

/-- One name of the model, for the first output. -/
theorem given_singleton {name : Bytes} (h : ∀ s, (.input name, s) ∉ ps.params) :
    Given ps [name] where
  injective k k' name' hk hk' := by
    have hlt {k : ℕ} (hg : givenName [name] k = some name') : k = 0 := by
      obtain ⟨hk, -⟩ := Option.filter_eq_some_iff.mp hg
      simpa using (List.getElem?_eq_some_iff.mp hk).1
    rw [hlt hk, hlt hk']
  not_input k name' hk := by
    obtain ⟨hk, -⟩ := Option.filter_eq_some_iff.mp hk
    obtain rfl := List.mem_singleton.mp (List.mem_of_getElem? hk)
    exact h

theorem positional_static_pair :
    let ps := ParameterSet.withOutputs [1, 0] (by decide) (by decide)
    let e : ShimEngine (.single ps.entries []) :=
      ⟨⟨(), [inputTensor (text "x", floatPair), outputTensor [text "y"] (0, floatPair),
        outputTensor [text "y"] (1, floatPair)]⟩, ⟨[], by decide⟩⟩
    Positional e := by
  intro ps e
  have hgiven : Given ps [text "y"] := given_singleton fun s h =>
    absurd (ParameterSet.input_mem_withOutputs.mp h).1 (by decide)
  have hapart : NamesApart ps [text "y"] := by
    intro k s hk
    have hcases : k = 1 ∨ k = 0 := by
      simpa using (ParameterSet.output_mem_withOutputs.mp hk).1
    rcases hcases with rfl | rfl
    · refine ⟨fun s' h => ?_, ParameterSet.forall_output_withOutputs (by decide)⟩
      exact absurd (ParameterSet.input_mem_withOutputs.mp h).1 (by decide)
    · exact (by decide : (0 : UInt8) ∉ text "y")
  exact (positional_static_iff _ ps [text "y"] e (by decide +kernel) hgiven).mpr
    ⟨by decide, hapart⟩

/-- The output of index one has no name in the model, and its synthetic name is the name of the
output of index zero. -/
theorem positional_clash :
    let ps := ParameterSet.withOutputs [0, 1] (by decide) (by decide)
    let onnxNames := [text "output_1"]
    let e : ShimEngine (.single ps.entries []) :=
      ⟨⟨(), [inputTensor (text "x", floatPair), outputTensor onnxNames (0, floatPair),
        outputTensor onnxNames (1, floatPair)]⟩, ⟨[], by decide⟩⟩
    buildIos none ps.entries onnxNames = some e.ios ∧ Given ps onnxNames ∧
      ¬ (e.ios.map fun io => io.name).Nodup ∧
      (bindingPtrs e.ios fun i => UInt64.ofNat i)[text "output_1"]? = some 2 ∧
      (e.getIOTensorName 2).bind e.find = some 1 := by
  intro ps onnxNames e
  have hgiven : Given ps onnxNames := given_singleton fun s h =>
    absurd (ParameterSet.input_mem_withOutputs.mp h).1 (by decide)
  exact ⟨by decide +kernel, hgiven, by decide +kernel, by decide +kernel, by decide +kernel⟩

end Static

end TrtShim.Shim
