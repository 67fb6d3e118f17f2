import TrtShim.Backend.Basic

/-! # Dimensions in a fixed array

TensorRT passes dimensions around as a rank next to an array of eight entries.
Only the first eight dimensions of a tensor fit the array, but the rank counts
all of them.
-/

namespace TrtShim.Shim

/-- `Dims::MAX_DIMS`. -/
abbrev maxDims : ℕ := 8

/-- `nvinfer1::Dims`; the default is `Dims{}`. -/
structure Dims where
  nbDims : Int32 := 0
  d : Vector Int64 maxDims := Vector.replicate maxDims 0
  deriving DecidableEq

/-- The rank lies within the array. -/
def Dims.Valid (dims : Dims) : Prop := 0 ≤ dims.nbDims ∧ dims.nbDims ≤ Int32.ofNat maxDims

instance (dims : Dims) : Decidable dims.Valid := instDecidableAnd

/-- Dimensions that a caller may pass. -/
abbrev ValidDims := {dims : Dims // dims.Valid}

namespace Dims

variable (dims : Dims)

/-- The number of dimensions. -/
def rank : ℕ := dims.nbDims.toNatClampNeg

/-- The dimension at an index. -/
def dim (i : ℕ) : Int64 := dims.d[i]?.getD 0

/-- The range from `dims.d` to `dims.d + dims.nbDims`. -/
def entries : List Int64 := dims.d.toList.take dims.rank

end Dims

/-- The loop of `to_dims` from an index on: the array, and the indices written. -/
def copyDims : ℕ → List Int64 → Vector Int64 maxDims → Vector Int64 maxDims × List ℕ
  | _, [], d => (d, [])
  | i, v :: vs, d =>
    if i < maxDims then
      let (d, writes) := copyDims (i + 1) vs (d.setIfInBounds i v)
      (d, i :: writes)
    else (d, [])

/-- `to_dims`. -/
def toDims (v : List Int64) : Dims where
  nbDims := Int32.ofNat v.length
  d := (copyDims 0 v (Vector.replicate maxDims 0)).1

/-- The indices at which `to_dims` writes. -/
def toDimsWrites (v : List Int64) : List ℕ := (copyDims 0 v (Vector.replicate maxDims 0)).2

/-- The loop of `getTensorStrides` below an index: the array, and the indices at which the strides
are written and the dimensions read. -/
def strideLoop (dims : Dims) :
    ℕ → Int64 → Vector Int64 maxDims → Vector Int64 maxDims × List ℕ
  | 0, _, s => (s, [])
  | i + 1, acc, s =>
    let (s', accesses) :=
      strideLoop dims i (acc * if 0 < dims.dim i then dims.dim i else 1) (s.setIfInBounds i acc)
    (s', i :: accesses)

/-- The number of passes of the loop that counts down from `nbDims - 1`. -/
def stridePasses (dims : Dims) : ℕ := ((dims.nbDims - 1).toInt + 1).toNat

/-- The strides that `getTensorStrides` makes of dimensions. -/
def stridesOf (dims : Dims) : Dims where
  nbDims := dims.nbDims
  d := (strideLoop dims (stridePasses dims) 1 (Vector.replicate maxDims 0)).1

/-- The indices at which `getTensorStrides` accesses the arrays. -/
def strideAccesses (dims : Dims) : List ℕ :=
  (strideLoop dims (stridePasses dims) 1 (Vector.replicate maxDims 0)).2

theorem copyDims_getElem (i : ℕ) (v : List Int64) (d : Vector Int64 maxDims) {j : ℕ}
    (hj : j < maxDims) :
    (copyDims i v d).1[j] = if i ≤ j then (v[j - i]?).getD d[j] else d[j] := by
  induction v generalizing i d with
  | nil => simp [copyDims]
  | cons x v ih =>
    rw [copyDims]
    split
    next hi =>
      rw [ih (i + 1) (d.setIfInBounds i x), Vector.getElem_setIfInBounds]
      rcases Nat.lt_trichotomy i j with hlt | rfl | hgt
      · obtain ⟨k, rfl⟩ := Nat.exists_eq_add_of_lt hlt
        have hk : i + k + 1 - (i + 1) = k := by omega
        have hk' : i + k + 1 - i = k + 1 := by omega
        rw [if_pos (by omega), if_neg (by omega), if_pos (by omega), hk, hk',
          List.getElem?_cons_succ]
      · rw [if_neg (by omega), if_pos rfl, if_pos le_rfl, Nat.sub_self]
        rfl
      · rw [if_neg (by omega), if_neg (by omega), if_neg (by omega)]
    next hi =>
      have hle : ¬ i ≤ j := by omega
      rw [if_neg hle]

/-- The array of `to_dims` holds the dimensions from the first on, and zeros after them. -/
theorem toDims_getElem (v : List Int64) {j : ℕ} (hj : j < maxDims) :
    (toDims v).d[j] = (v[j]?).getD 0 := by
  change (copyDims 0 v (Vector.replicate maxDims 0)).1[j] = _
  rw [copyDims_getElem, if_pos (Nat.zero_le j), Nat.sub_zero, Vector.getElem_replicate]

theorem dim_toDims (v : List Int64) (i : ℕ) :
    (toDims v).dim i = if i < maxDims then (v[i]?).getD 0 else 0 := by
  rw [Dims.dim]
  split
  next hi => rw [Vector.getElem?_eq_getElem hi, Option.getD_some, toDims_getElem v hi]
  next hi => rw [Vector.getElem?_eq_none (Nat.le_of_not_lt hi), Option.getD_none]

theorem copyDims_writes (i : ℕ) (v : List Int64) (d : Vector Int64 maxDims) :
    ∀ j ∈ (copyDims i v d).2, j < maxDims := by
  induction v generalizing i d with
  | nil => exact nofun
  | cons x v ih =>
    rw [copyDims]
    split
    next hi =>
      rintro j (_ | ⟨_, hj⟩)
      · exact hi
      · exact ih _ _ j hj
    next => exact nofun

/-- `to_dims` stays inside its array whatever the rank. -/
theorem toDimsWrites_lt (v : List Int64) : ∀ j ∈ toDimsWrites v, j < maxDims :=
  copyDims_writes 0 v _

theorem mem_strideLoop {dims : Dims} {n : ℕ} {acc : Int64} {s : Vector Int64 maxDims} {j : ℕ} :
    j ∈ (strideLoop dims n acc s).2 ↔ j < n := by
  induction n generalizing acc s with
  | zero => simp [strideLoop]
  | succ n ih =>
    rw [strideLoop, List.mem_cons, ih]
    omega

/-- The accesses of `getTensorStrides` stay inside the arrays exactly if the loop makes no more
than eight passes. -/
theorem strideAccesses_lt_iff {dims : Dims} :
    (∀ j ∈ strideAccesses dims, j < maxDims) ↔ stridePasses dims ≤ maxDims := by
  simp only [strideAccesses, mem_strideLoop]
  constructor
  · intro h
    by_contra hgt
    exact absurd (h maxDims (Nat.lt_of_not_le hgt)) (Nat.lt_irrefl _)
  · exact fun h j hj => Nat.lt_of_lt_of_le hj h

/-- Dimensions of one rank are converted alike exactly if they begin alike. -/
theorem toDims_inj {v w : List Int64} (hlen : v.length = w.length) :
    toDims v = toDims w ↔ v.take maxDims = w.take maxDims := by
  constructor
  · intro h
    ext j : 1
    by_cases hj : j < maxDims
    · have hget := congrArg (fun dims : Dims => dims.d[j]) h
      simp only [toDims_getElem] at hget
      rw [List.getElem?_take_of_lt hj, List.getElem?_take_of_lt hj]
      by_cases hv : j < v.length
      · rw [List.getElem?_eq_getElem hv, List.getElem?_eq_getElem (hlen ▸ hv)] at hget ⊢
        exact congrArg some hget
      · rw [List.getElem?_eq_none (Nat.le_of_not_lt hv),
          List.getElem?_eq_none (hlen ▸ Nat.le_of_not_lt hv)]
    · rw [List.getElem?_take_eq_none (Nat.le_of_not_lt hj),
        List.getElem?_take_eq_none (Nat.le_of_not_lt hj)]
  · intro h
    have hd : (toDims v).d = (toDims w).d := by
      ext j hj : 1
      rw [toDims_getElem v hj, toDims_getElem w hj, ← List.getElem?_take_of_lt hj, h,
        List.getElem?_take_of_lt hj]
    have hn : (toDims v).nbDims = (toDims w).nbDims := congrArg Int32.ofNat hlen
    exact Dims.mk.injEq _ _ _ _ ▸ ⟨hn, hd⟩

theorem toDims_map_iff {v : List Int64} {f : Int64 → Int64} :
    toDims v = toDims (v.map f) ↔ ∀ x ∈ v.take maxDims, f x = x := by
  have hid : v.take maxDims = (v.take maxDims).map id := (List.map_id _).symm
  rw [toDims_inj (List.length_map f).symm, ← List.map_take, eq_comm]
  constructor
  · exact fun h => List.map_inj_left.mp (h.trans hid)
  · exact fun h => (List.map_inj_left.mpr h).trans hid.symm

end TrtShim.Shim
