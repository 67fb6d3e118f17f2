import TrtShim.Backend.Format
import TrtShim.Shim.Context

/-! # The shapes that an engine and a context report

A shape is reported through an array of eight dimensions. The rank reported is
the rank of the tensor, and whoever iterates over it leaves the array when a
tensor has more dimensions than that.
-/

namespace TrtShim.Shim

open Backend

variable {M : Migraphx}

/-- The first IO tensor of a name. -/
def tensorOf (ios : List IOTensor) (name : Bytes) : Option IOTensor :=
  ios.find? fun io => io.name = name

namespace ShimEngine

variable (e : ShimEngine M) (name : Bytes)

/-- The dimensions that `getTensorShape` converts. -/
def dimsOf : Option (List Int64) :=
  match (e.find name).bind fun i => e.ios[i]? with
  | some t => some t.dims
  | none => none

/-- `getTensorShape`. -/
def getTensorShape : Dims :=
  match e.dimsOf name with
  | some dims => toDims dims
  | none => {}

end ShimEngine

namespace ShimContext

variable (c : ShimContext M) (name : Bytes)

/-- The dimensions that `getTensorShape` converts. -/
def dimsOf : Option (List Int64) :=
  match c.shapes[name]? with
  | some dims => some dims
  | none => (tensorOf c.engine.ios name).map fun io => io.dims

/-- `getTensorShape`. -/
def getTensorShape : Dims :=
  match c.dimsOf name with
  | some dims => toDims dims
  | none => {}

/-- `getTensorStrides`. -/
def getTensorStrides : Dims := stridesOf (c.getTensorShape name)

end ShimContext

theorem ShimEngine.dimsOf_eq (e : ShimEngine M) (name : Bytes) :
    e.dimsOf name = (tensorOf e.ios name).map fun io => io.dims := by
  rw [tensorOf, List.find?_eq_bind_findIdx?_getElem?, ShimEngine.dimsOf, ShimEngine.find]
  split
  next h => rw [h, Option.map_some]
  next h => rw [h, Option.map_none]

section Rank

variable {v : List Int64}

theorem nbDims_toInt (h : v.length < 2 ^ 32) : (toDims v).nbDims.toInt =
    if v.length < 2 ^ 31 then (v.length : ℤ) else v.length - 2 ^ 32 := by
  change (BitVec.ofNat 32 v.length).toInt = _
  simp only [BitVec.toInt, BitVec.toNat_ofNat]
  split <;> split <;> omega

theorem nbDims_le_iff (h : v.length < 2 ^ 32) :
    (toDims v).nbDims ≤ Int32.ofNat maxDims ↔ v.length ≤ maxDims ∨ 2 ^ 31 ≤ v.length := by
  have hmax : maxDims = 8 := rfl
  have h8 : (Int32.ofNat maxDims).toInt = 8 := by decide
  rw [Int32.le_iff_toInt_le, nbDims_toInt h, h8]
  split <;> omega

/-- The rank `2 ^ 31` is the least `int32_t`, and counting down from it wraps around. -/
theorem stridePasses_toDims (h : v.length < 2 ^ 32) :
    stridePasses (toDims v) = if v.length ≤ 2 ^ 31 then v.length else 0 := by
  have hsub : ((toDims v).nbDims - 1).toInt =
      if v.length ≤ 2 ^ 31 then (v.length : ℤ) - 1 else v.length - 1 - 2 ^ 32 := by
    change (BitVec.ofNat 32 v.length - BitVec.ofNat 32 1).toInt = _
    simp only [BitVec.toInt, BitVec.toNat_sub, BitVec.toNat_ofNat]
    split <;> split <;> omega
  rw [stridePasses, hsub]
  split <;> omega

/-- The dimensions and their strides are converted inside the array exactly if there are at most
eight, or so many that the rank counts as negative. -/
theorem toDims_contained_iff (h : v.length < 2 ^ 32) :
    (toDims v).nbDims ≤ Int32.ofNat maxDims ∧ (∀ i ∈ strideAccesses (toDims v), i < maxDims) ↔
      v.length ≤ maxDims ∨ 2 ^ 31 < v.length := by
  have hmax : maxDims = 8 := rfl
  rw [nbDims_le_iff h, strideAccesses_lt_iff, stridePasses_toDims h]
  split <;> omega

end Rank

theorem length_entries (dims : ValidDims) : dims.1.entries.length ≤ maxDims := by
  rw [Dims.entries, List.length_take, Vector.length_toList]
  exact Nat.min_le_right _ _

/-- Every shape that a history sets was passed through an array. -/
theorem length_of_shapeWrites {calls : List ContextCall} {name : Bytes} {dims : List Int64}
    (h : (name, dims) ∈ shapeWrites calls) : dims.length ≤ maxDims := by
  obtain ⟨call, -, hcall⟩ := List.mem_filterMap.mp h
  cases call with
  | setInputShape name' dims' =>
    obtain ⟨-, rfl⟩ := Prod.mk.inj (Option.some.inj hcall)
    exact length_entries dims'
  | setTensorAddress | executeV2 | enqueueV3 => exact absurd hcall (by simp)

/-- The shapes reported for a name have a rank of at most eight, and the loops that convert them
and compute their strides stay inside the arrays. -/
structure Contained (e : ShimEngine M) (c : ShimContext M) (name : Bytes) : Prop where
  engine : (e.getTensorShape name).nbDims ≤ Int32.ofNat maxDims
  context : (c.getTensorShape name).nbDims ≤ Int32.ofNat maxDims
  strides : (c.getTensorStrides name).nbDims ≤ Int32.ofNat maxDims
  writes : ∀ dims, e.dimsOf name = some dims ∨ c.dimsOf name = some dims →
    ∀ i ∈ toDimsWrites dims, i < maxDims
  accesses : ∀ i ∈ strideAccesses (c.getTensorShape name), i < maxDims

section After

variable (e : ShimEngine M) (hip : Hip) (calls : List ContextCall) (name : Bytes)

theorem after_create : e.createExecutionContext.after hip calls =
    ⟨e.engine, OrderedMap.fill ∅ (addressWrites calls), OrderedMap.fill ∅ (shapeWrites calls)⟩ :=
  after_eq _ hip calls

/-- A context converts the dimensions set last under a name, or those of its IO tensor. -/
theorem dimsOf_after : (e.createExecutionContext.after hip calls).dimsOf name =
    (Lists.lastValue (shapeWrites calls) name).or
      ((tensorOf e.ios name).map fun io => io.dims) := by
  rw [after_create, ShimContext.dimsOf, OrderedMap.getElem?_fill]
  cases Lists.lastValue (shapeWrites calls) name with
  | some dims => rfl
  | none => rfl

end After

theorem contained_of_dims {e : ShimEngine M} {c : ShimContext M} {name : Bytes}
    (he : ∀ dims, e.dimsOf name = some dims → dims.length < 2 ^ 32 ∧
      (dims.length ≤ maxDims ∨ 2 ^ 31 < dims.length))
    (hc : ∀ dims, c.dimsOf name = some dims → dims.length < 2 ^ 32 ∧
      (dims.length ≤ maxDims ∨ 2 ^ 31 < dims.length)) : Contained e c name := by
  have hengine : (e.getTensorShape name).nbDims ≤ Int32.ofNat maxDims := by
    unfold ShimEngine.getTensorShape
    split
    next dims h => exact ((toDims_contained_iff (he dims h).1).mpr (he dims h).2).1
    next => decide
  have hcontext : (c.getTensorShape name).nbDims ≤ Int32.ofNat maxDims ∧
      ∀ i ∈ strideAccesses (c.getTensorShape name), i < maxDims := by
    unfold ShimContext.getTensorShape
    split
    next dims h => exact (toDims_contained_iff (hc dims h).1).mpr (hc dims h).2
    next => decide
  exact ⟨hengine, hcontext.1, hcontext.1, fun dims _ => toDimsWrites_lt dims, hcontext.2⟩

/-- For an engine that was loaded and the contexts made of it, the shapes reported for a name stay
inside the array exactly if its IO tensor has at most eight dimensions, or so many that its rank
counts as negative. -/
theorem shapes_contained_iff (M : Migraphx) (hip : Hip) (host : Host) (b : Buffer)
    (files : TempFiles) (e : ShimEngine M) (he : (load M host b files).engine = some e.engine)
    (name : Bytes) :
    (∀ calls, Contained e (e.createExecutionContext.after hip calls) name) ↔
      ∀ io, tensorOf e.ios name = some io →
        io.dims.length ≤ maxDims ∨ 2 ^ 31 < io.dims.length := by
  have hrank : ∀ io, tensorOf e.ios name = some io → io.dims.length < 2 ^ 32 := by
    obtain ⟨mxr, hacc⟩ := accepted_of_load he
    intro io hio
    exact ((decode_accepted_iff.mp hacc).1 io (List.mem_of_find?_eq_some hio)).rank_lt
  constructor
  · intro h io hio
    have hdims : (e.createExecutionContext.after hip []).dimsOf name = some io.dims := by
      rw [dimsOf_after, hio]
      rfl
    have hshape : (e.createExecutionContext.after hip []).getTensorShape name =
        toDims io.dims := by rw [ShimContext.getTensorShape, hdims]
    have hc := h []
    exact (toDims_contained_iff (hrank io hio)).mp
      ⟨hshape ▸ hc.context, fun i hi => hc.accesses i (hshape ▸ hi)⟩
  · intro h calls
    have hmeta : ∀ dims, (tensorOf e.ios name).map (fun io => io.dims) = some dims →
        dims.length < 2 ^ 32 ∧ (dims.length ≤ maxDims ∨ 2 ^ 31 < dims.length) := by
      intro dims hd
      obtain ⟨io, hio, rfl⟩ := Option.map_eq_some_iff.mp hd
      exact ⟨hrank io hio, h io hio⟩
    apply contained_of_dims
    · intro dims hd
      rw [ShimEngine.dimsOf_eq] at hd
      exact hmeta dims hd
    · intro dims hd
      rw [dimsOf_after] at hd
      rcases Option.or_eq_some_iff.mp hd with hset | ⟨-, hd⟩
      · have hle := length_of_shapeWrites (Lists.mem_of_lastValue hset)
        have hmax : maxDims = 8 := rfl
        exact ⟨by omega, .inl hle⟩
      · exact hmeta dims hd

/-- A tensor of nine dimensions. -/
def nineDims : IOTensor := ⟨text "x", List.replicate 9 1, 4, 4, .kInput⟩

theorem contained_rank_eight :
    let M := Migraphx.single [] []
    let io : IOTensor := { nineDims with dims := List.replicate 8 1 }
    let b : Buffer := ⟨packBlob [io] [77], by decide +kernel⟩
    let e : ShimEngine M := ⟨⟨(), [io]⟩, b⟩
    Contained e (e.createExecutionContext.after .plain []) (text "x") := by
  intro M io b e
  have hkeeps : Host.plain.Keeps [77] := Host.plain_keeps (by decide)
  have he : (load M .plain b []).engine = some e.engine ∧ _ :=
    load_packBlob (by decide +kernel) (by decide) rfl hkeeps rfl
  refine (shapes_contained_iff M .plain .plain b [] e he.1 (text "x")).mpr ?_ []
  rintro _ ⟨⟩
  exact .inl (by decide)

/-- The rank of a tensor of nine dimensions is reported as it is, and its strides are written past
the end of the array. -/
theorem not_contained_nineDims :
    let M := Migraphx.single [] []
    let b : Buffer := ⟨packBlob [nineDims] [77], by decide +kernel⟩
    let e : ShimEngine M := ⟨⟨(), [nineDims]⟩, b⟩
    let c := e.createExecutionContext
    (load M .plain b []).engine = some e.engine ∧
      (e.getTensorShape (text "x")).nbDims = 9 ∧ (c.getTensorShape (text "x")).nbDims = 9 ∧
      (c.getTensorStrides (text "x")).nbDims = 9 ∧
      8 ∈ strideAccesses (c.getTensorShape (text "x")) ∧ ¬ Contained e c (text "x") := by
  intro M b e c
  have hkeeps : Host.plain.Keeps [77] := Host.plain_keeps (by decide)
  have he : (load M .plain b []).engine = some e.engine ∧ _ :=
    load_packBlob (by decide +kernel) (by decide) rfl hkeeps rfl
  exact ⟨he.1, by decide +kernel, by decide +kernel, by decide +kernel, by decide +kernel,
    fun h => absurd h.context (by decide +kernel)⟩

end TrtShim.Shim
