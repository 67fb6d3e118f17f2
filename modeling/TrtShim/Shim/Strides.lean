import TrtShim.Layout.RowMajor
import TrtShim.Shim.Shapes

/-! # The strides that a context reports

The strides are accumulated from the last dimension to the first. When all
dimensions are positive and the volume fits an `int64_t`, no product on the way is
larger than the volume, and the strides are those of the dense row-major layout.
-/

namespace TrtShim.Shim

open Backend RowMajor

/-- The products that the loop of `getTensorStrides` forms below an index, before they are stored
in an `int64_t`. -/
def strideProducts (dims : Dims) : ℕ → Int64 → List ℤ
  | 0, _ => []
  | i + 1, acc =>
    let d := if 0 < dims.dim i then dims.dim i else 1
    acc.toInt * d.toInt :: strideProducts dims i (acc * d)

/-- The array holds these dimensions. They are positive, and their volume is an `int64_t`. -/
structure Shaped (dims : Dims) (ds : List ℕ) : Prop where
  dim : ∀ (i : ℕ) (hi : i < ds.length), (dims.dim i).toInt = ds[i]
  pos : ∀ d ∈ ds, 0 < d
  volume_lt : volume ds < 2 ^ 63

namespace Shaped

variable {dims : Dims} {ds : List ℕ} {n : ℕ} {acc : Int64}

/-- One pass of the loop multiplies the volume of what comes after an index by its dimension. -/
theorem mul_eq (h : Shaped dims ds) (hn : n < ds.length)
    (hacc : acc.toInt = volume (ds.drop (n + 1))) :
    acc.toInt * (if 0 < dims.dim n then dims.dim n else 1).toInt = volume (ds.drop n) := by
  have hdim := h.dim n hn
  have hpos := h.pos _ (List.getElem_mem hn)
  have hif : (if 0 < dims.dim n then dims.dim n else 1) = dims.dim n := by
    apply if_pos
    rw [Int64.lt_iff_toInt_lt, hdim]
    exact Int.ofNat_lt.mpr hpos
  rw [hif, hdim, hacc, List.drop_eq_getElem_cons hn, volume, Int.natCast_mul, Int.mul_comm]

theorem volume_drop_lt (h : Shaped dims ds) (k : ℕ) : volume (ds.drop k) < 2 ^ 63 :=
  Nat.lt_of_le_of_lt (volume_drop_le h.pos k) h.volume_lt

/-- The product of a pass is what its `int64_t` holds. -/
theorem toInt_mul_eq (h : Shaped dims ds) (hn : n < ds.length)
    (hacc : acc.toInt = volume (ds.drop (n + 1))) :
    (acc * if 0 < dims.dim n then dims.dim n else 1).toInt = volume (ds.drop n) := by
  have hlt := h.volume_drop_lt n
  rw [Int64.toInt_mul, h.mul_eq hn hacc]
  apply Int.bmod_eq_of_le
  · omega
  · omega

theorem strideLoop_getElem (h : Shaped dims ds) (hn : n ≤ ds.length)
    (hacc : acc.toInt = volume (ds.drop n)) (s : Vector Int64 maxDims) {j : ℕ}
    (hj : j < maxDims) : (strideLoop dims n acc s).1[j].toInt =
      if j < n then (volume (ds.drop (j + 1)) : ℤ) else s[j].toInt := by
  induction n generalizing acc s with
  | zero => rfl
  | succ n ih =>
    rw [strideLoop, ih (Nat.le_of_succ_le hn) (h.toInt_mul_eq hn hacc),
      Vector.getElem_setIfInBounds]
    rcases Nat.lt_trichotomy j n with hlt | rfl | hgt
    · rw [if_pos hlt, if_pos (Nat.lt_succ_of_lt hlt)]
    · rw [if_neg (Nat.lt_irrefl j), if_pos rfl, if_pos (Nat.lt_succ_self j), hacc]
    · rw [if_neg (Nat.not_lt_of_gt hgt), if_neg (Nat.ne_of_lt hgt), if_neg (by omega)]

/-- No product of the loop leaves the range of an `int64_t`. -/
theorem strideProducts_lt (h : Shaped dims ds) (hn : n ≤ ds.length)
    (hacc : acc.toInt = volume (ds.drop n)) :
    ∀ p ∈ strideProducts dims n acc, -2 ^ 63 ≤ p ∧ p < 2 ^ 63 := by
  induction n generalizing acc with
  | zero => exact nofun
  | succ n ih =>
    have hlt := h.volume_drop_lt n
    rw [strideProducts, List.forall_mem_cons, h.mul_eq hn hacc]
    refine ⟨by omega, ih (Nat.le_of_succ_le hn) (h.toInt_mul_eq hn hacc)⟩

end Shaped

section Entries

variable {v : List Int64}

/-- The sizes of dimensions that are not negative. -/
def sizes (v : List Int64) : List ℕ := v.map Int64.toNatClampNeg

theorem length_sizes : (sizes v).length = v.length := List.length_map _

/-- The accumulator starts with the volume of the empty shape. -/
theorem toInt_one_eq_volume : (1 : Int64).toInt = volume ((sizes v).drop v.length) := by
  rw [List.drop_eq_nil_of_le (Nat.le_of_eq length_sizes)]
  rfl

theorem one_le_toInt (hpos : ∀ d ∈ v, 1 ≤ d) {d : Int64} (hd : d ∈ v) : 1 ≤ d.toInt :=
  Int64.le_iff_toInt_le.mp (hpos d hd)

theorem shaped_toDims (hrank : v.length ≤ maxDims) (hpos : ∀ d ∈ v, 1 ≤ d)
    (hvol : volume (sizes v) < 2 ^ 63) : Shaped (toDims v) (sizes v) where
  dim i hi := by
    rw [sizes, List.length_map] at hi
    have hd := one_le_toInt hpos (List.getElem_mem hi)
    simp only [sizes, List.getElem_map]
    rw [dim_toDims, if_pos (Nat.lt_of_lt_of_le hi hrank), List.getElem?_eq_getElem hi,
      Option.getD_some, Int64.toNatClampNeg]
    omega
  pos := by
    intro d hd
    obtain ⟨x, hx, rfl⟩ := List.mem_map.mp hd
    have hle := one_le_toInt hpos hx
    rw [Int64.toNatClampNeg]
    omega
  volume_lt := hvol

theorem rank_toDims (hrank : v.length ≤ maxDims) : (toDims v).rank = v.length := by
  have hmax : maxDims = 8 := rfl
  rw [Dims.rank, Int32.toNatClampNeg, nbDims_toInt (by omega), if_pos (by omega)]
  rfl

/-- One pass for each dimension. -/
theorem stridePasses_eq_length (hrank : v.length ≤ maxDims) :
    stridePasses (toDims v) = v.length := by
  have hmax : maxDims = 8 := rfl
  rw [stridePasses_toDims (by omega), if_pos (by omega)]

/-- The strides are the volumes of what comes after each index. -/
theorem entries_stridesOf (hrank : v.length ≤ maxDims) (hpos : ∀ d ∈ v, 1 ≤ d)
    (hvol : volume (sizes v) < 2 ^ 63) :
    (stridesOf (toDims v)).entries.map Int64.toInt = strides (sizes v) := by
  have hlength : ((stridesOf (toDims v)).entries.map Int64.toInt).length = v.length := by
    have hr : (stridesOf (toDims v)).rank = v.length := rank_toDims hrank
    rw [List.length_map, Dims.entries, hr, List.length_take, Vector.length_toList]
    omega
  apply List.ext_getElem
  · rw [hlength, length_strides, length_sizes]
  · intro j hj hj'
    rw [hlength] at hj
    have hn : v.length ≤ (sizes v).length := Nat.le_of_eq length_sizes.symm
    have hloop := (shaped_toDims hrank hpos hvol).strideLoop_getElem hn toInt_one_eq_volume
      (Vector.replicate maxDims 0) (Nat.lt_of_lt_of_le hj hrank)
    rw [if_pos hj] at hloop
    have hstride : (strides (sizes v))[j]? = some (volume ((sizes v).drop (j + 1)) : ℤ) :=
      getElem?_strides (Nat.lt_of_lt_of_le hj hn)
    rw [List.getElem?_eq_getElem hj', Option.some.injEq] at hstride
    rw [hstride, ← hloop]
    simp [Dims.entries, stridesOf, stridePasses_eq_length hrank]

end Entries

/-- For a shape of rank at most eight whose dimensions are positive and whose volume fits an
`int64_t`, the strides reported are computed without overflow, and they lay out the index tuples
densely and in lexicographic order. -/
theorem getTensorStrides_rowMajor (M : Migraphx) (c : ShimContext M) (name : Bytes)
    (v : List Int64) (hv : c.dimsOf name = some v) (hrank : v.length ≤ maxDims)
    (hpos : ∀ d ∈ v, 1 ≤ d) (hvol : volume (sizes v) < 2 ^ 63) :
    (∀ p ∈ strideProducts (c.getTensorShape name) (stridePasses (c.getTensorShape name)) 1,
      -2 ^ 63 ≤ p ∧ p < 2 ^ 63) ∧
    (c.getTensorStrides name).entries.length = v.length ∧
    Set.BijOn (address ((c.getTensorStrides name).entries.map Int64.toInt)) (Indices (sizes v))
      {a | 0 ≤ a ∧ a < volume (sizes v)} ∧
    ∀ is ∈ Indices (sizes v), ∀ js ∈ Indices (sizes v), List.Lex (· < ·) is js →
      address ((c.getTensorStrides name).entries.map Int64.toInt) is <
        address ((c.getTensorStrides name).entries.map Int64.toInt) js := by
  have hshape : c.getTensorShape name = toDims v := by
    rw [ShimContext.getTensorShape, hv]
  have hentries := entries_stridesOf hrank hpos hvol
  rw [ShimContext.getTensorStrides, hshape, hentries]
  refine ⟨?_, ?_, bijOn_address _, fun is hi js hj h => address_lt_address hi hj h⟩
  · rw [stridePasses_eq_length hrank]
    exact (shaped_toDims hrank hpos hvol).strideProducts_lt (Nat.le_of_eq length_sizes.symm)
      toInt_one_eq_volume
  · rw [← List.length_map (f := Int64.toInt), hentries, length_strides, length_sizes]

theorem getTensorStrides_rowMajor_unit :
    let e : ShimEngine (.single [] []) :=
      ⟨⟨(), [⟨text "x", [2, 1, 3], 4, 4, .kInput⟩]⟩, ⟨[], by decide⟩⟩
    let strides := e.createExecutionContext.getTensorStrides (text "x")
    strides.entries = [3, 3, 1] ∧
      Set.BijOn (address (strides.entries.map Int64.toInt)) (Indices [2, 1, 3])
        {a | 0 ≤ a ∧ a < 6} := by
  intro e strides
  have hpos : ∀ d ∈ ([2, 1, 3] : List Int64), 1 ≤ d := by
    simp only [List.forall_mem_cons]
    exact ⟨by decide, by decide, by decide, nofun⟩
  have h := getTensorStrides_rowMajor _ e.createExecutionContext (text "x") [2, 1, 3]
    (by decide +kernel) (by decide) hpos (by decide +kernel)
  exact ⟨by decide +kernel, h.2.2.1⟩

end TrtShim.Shim
