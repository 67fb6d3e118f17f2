import TrtShim.Backend.Engine
import TrtShim.Layout.RowMajor

/-! # The sizes of tensors

A tensor is described by its dimensions and the bytes of one element, and a client
multiplies them to get the size of a buffer. For a densely packed shape the product
is the number of bytes that MIGraphX reads or writes.
-/

namespace TrtShim.Backend

open RowMajor

/-- The constructor of `migraphx::shape` packs the elements of a type of this size. -/
structure Migraphx.Packs (M : Migraphx) (typeSize : Int32 → ℕ) : Prop where
  pos : ∀ type, 0 < typeSize type
  lt : ∀ type, typeSize type < 2 ^ 31
  shape : ∀ type lengths, M.shape type lengths =
    ⟨type, lengths, UInt64.ofNat (volume (lengths.map UInt64.toNat)),
      UInt64.ofNat (volume (lengths.map UInt64.toNat) * typeSize type)⟩

/-- The shape is the packed one of its type and lengths, and its size fits a `size_t`. -/
structure Shape.Dense (M : Migraphx) (typeSize : Int32 → ℕ) (s : Shape) : Prop where
  packed : M.shape s.type s.lengths = s
  lt : volume (s.lengths.map UInt64.toNat) * typeSize s.type < 2 ^ 64

/-- The loop that multiplies the bytes of an element by the dimensions. -/
def IOTensor.bufferBytes (io : IOTensor) : UInt64 :=
  io.dims.foldl (fun bytes d => bytes * d.toUInt64) io.bytesPerElem

variable {M : Migraphx} {typeSize : Int32 → ℕ} {s : Shape}

/-- Multiplying by the dimensions is multiplying by the volume. -/
theorem foldl_dims (lengths : List UInt64) (bytes : UInt64) :
    (lengths.map UInt64.toInt64).foldl (fun bytes d => bytes * d.toUInt64) bytes =
      bytes * UInt64.ofNat (volume (lengths.map UInt64.toNat)) := by
  induction lengths generalizing bytes with
  | nil => exact (UInt64.mul_one bytes).symm
  | cons l lengths ih =>
    rw [List.map_cons, List.foldl_cons, ih, List.map_cons, volume, UInt64.ofNat_mul,
      UInt64.ofNat_toNat, UInt64.toUInt64_toInt64, UInt64.mul_assoc]

namespace Shape.Dense

variable (hM : M.Packs typeSize) (h : s.Dense M typeSize)
include hM h

theorem elements_eq : s.elements = UInt64.ofNat (volume (s.lengths.map UInt64.toNat)) := by
  rw [← h.packed, hM.shape]

theorem bytes_eq :
    s.bytes = UInt64.ofNat (volume (s.lengths.map UInt64.toNat) * typeSize s.type) := by
  rw [← h.packed, hM.shape]

theorem volume_lt : volume (s.lengths.map UInt64.toNat) < 2 ^ 64 :=
  Nat.lt_of_le_of_lt (Nat.le_mul_of_pos_right _ (hM.pos s.type)) h.lt

/-- An element has the size of its type, unless there is no element. -/
theorem bytesPerElem_eq : bytesPerElem s =
    if volume (s.lengths.map UInt64.toNat) = 0 then 0 else UInt64.ofNat (typeSize s.type) := by
  have hvolume := h.volume_lt hM
  have helements : s.elements.toNat = volume (s.lengths.map UInt64.toNat) := by
    rw [h.elements_eq hM, UInt64.toNat_ofNat_of_lt' hvolume]
  have hbytes : s.bytes.toNat = volume (s.lengths.map UInt64.toNat) * typeSize s.type := by
    rw [h.bytes_eq hM, UInt64.toNat_ofNat_of_lt' h.lt]
  rw [bytesPerElem]
  by_cases hzero : volume (s.lengths.map UInt64.toNat) = 0
  · have hnone : s.elements = 0 := UInt64.toNat_inj.mp (helements.trans hzero)
    rw [if_pos hzero, if_neg (not_not.mpr hnone)]
  · have hsome : s.elements ≠ 0 := fun he => hzero (by rw [← helements, he]; rfl)
    have hsize : typeSize s.type < 2 ^ 64 := Nat.lt_trans (hM.lt s.type) (by decide)
    rw [if_neg hzero, if_pos hsome]
    apply UInt64.toNat_inj.mp
    rw [UInt64.toNat_div, helements, hbytes, Nat.mul_div_cancel_left _ (Nat.pos_of_ne_zero hzero),
      UInt64.toNat_ofNat_of_lt' hsize]

/-- The size computed from the metadata is the size of the shape. -/
theorem bufferBytes_eq (name : Bytes) (dir : IODir) :
    (ioFromShape name s dir).bufferBytes = s.bytes := by
  rw [IOTensor.bufferBytes, ioFromShape, foldl_dims, h.bytesPerElem_eq hM, h.bytes_eq hM]
  split
  next hzero => rw [hzero, Nat.zero_mul]; rfl
  next => rw [UInt64.ofNat_mul, UInt64.mul_comm]

end Shape.Dense

theorem prod_eq_volume (lengths : List UInt64) :
    lengths.prod = UInt64.ofNat (volume (lengths.map UInt64.toNat)) := by
  induction lengths with
  | nil => rfl
  | cons l lengths ih =>
    rw [List.prod_cons, ih, List.map_cons, volume, UInt64.ofNat_mul, UInt64.ofNat_toNat]

/-- A constructor that multiplies the lengths, for elements of four bytes. -/
theorem packs_of_prod (h : ∀ type lengths,
    M.shape type lengths = ⟨type, lengths, lengths.prod, 4 * lengths.prod⟩) :
    M.Packs fun _ => 4 where
  pos _ := by decide
  lt _ := by decide
  shape type lengths := by
    rw [h, prod_eq_volume, UInt64.ofNat_mul, UInt64.mul_comm]
    rfl

end TrtShim.Backend
