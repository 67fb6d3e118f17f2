import Mathlib.Algebra.Order.BigOperators.Group.List
import TrtShim.Backend.Blob

/-! # Decoding an engine blob that was packed

The decoder reads back every field that fits its place in the format. None of
its plausibility checks rejects a packed blob, because every IO tensor and every
dimension takes up bytes of it.
-/

namespace TrtShim.Backend

open Reading

/-- The fields of an IO tensor fit the widths of the format. -/
structure IOTensor.Encodable (io : IOTensor) : Prop where
  datatype_nonneg : 0 ≤ io.datatype.toInt
  datatype_lt : io.datatype.toInt < 2 ^ 8
  bytesPerElem_lt : io.bytesPerElem.toNat < 2 ^ 32
  name_lt : io.name.length < 2 ^ 32
  rank_lt : io.dims.length < 2 ^ 32

instance (io : IOTensor) : Decidable io.Encodable :=
  decidable_of_iff (0 ≤ io.datatype.toInt ∧ io.datatype.toInt < 2 ^ 8 ∧
    io.bytesPerElem.toNat < 2 ^ 32 ∧ io.name.length < 2 ^ 32 ∧ io.dims.length < 2 ^ 32)
    ⟨fun ⟨h₁, h₂, h₃, h₄, h₅⟩ => ⟨h₁, h₂, h₃, h₄, h₅⟩,
      fun h => ⟨h.1, h.2, h.3, h.4, h.5⟩⟩

@[simp] theorem length_putU32 (v : UInt32) : (putU32 v).length = 4 := Words.length_le _ _

@[simp] theorem length_putU64 (v : UInt64) : (putU64 v).length = 8 := Words.length_le _ _

theorem length_packDims (dims : List Int64) :
    (dims.flatMap fun d => putU64 d.toUInt64).length = 8 * dims.length := by
  induction dims with
  | nil => rfl
  | cons d dims ih => rw [List.flatMap_cons, List.length_append, length_putU64, ih,
      List.length_cons, Nat.mul_succ, Nat.add_comm]

theorem length_packTensor (io : IOTensor) :
    (packTensor io).length = 14 + io.name.length + 8 * io.dims.length := by
  simp only [packTensor, List.length_append, List.length_cons, List.length_nil, length_putU32,
    length_packDims]
  omega

theorem length_le_packTensors (ios : List IOTensor) :
    ios.length ≤ (ios.flatMap packTensor).length := by
  induction ios with
  | nil => simp
  | cons io ios ih =>
    rw [List.flatMap_cons, List.length_append, List.length_cons, length_packTensor]
    omega

theorem datatype_roundtrip {d : Int32} (h : 0 ≤ d.toInt) (h' : d.toInt < 2 ^ 8) :
    d.toUInt32.toUInt8.toUInt32.toInt32 = d := by
  have hd : d.toInt = if 2 * d.toBitVec.toNat < 2 ^ 32 then (d.toBitVec.toNat : ℤ)
      else d.toBitVec.toNat - (2 ^ 32 : ℕ) := BitVec.toInt_eq_toNat_cond _
  have hl := d.toBitVec.isLt
  apply Int32.toBitVec_inj.mp
  apply BitVec.eq_of_toNat_eq
  simp
  split at hd <;> omega

theorem uint32_roundtrip {v : UInt64} (h : v.toNat < 2 ^ 32) : v.toUInt32.toUInt64 = v := by
  apply UInt64.toNat_inj.mp
  rw [UInt32.toNat_toUInt64, UInt64.toNat_toUInt32, Nat.mod_eq_of_lt h]

theorem toNat_ofNat32 {k : ℕ} (h : k < 2 ^ 32) : (UInt32.ofNat k).toNat = k := by
  rw [UInt32.toNat_ofNat', Nat.mod_eq_of_lt h]

theorem toNat_ofNat64 {k : ℕ} (h : k < 2 ^ 64) : (UInt64.ofNat k).toNat = k := by
  rw [UInt64.toNat_ofNat', Nat.mod_eq_of_lt h]

variable {b : Buffer} {rest : Bytes} {E : Cursor Slot → Prop}

theorem getU32_at (v : UInt32) :
    Triple b (At b (putU32 v ++ rest)) getU32 (fun r s => r = v ∧ At b rest s) E := by
  have hw : Triple b (At b (putU32 v ++ rest)) (Reader.word 4)
      (fun r s => r = v.toNat ∧ At b rest s) E := word_at (k := 4) v.toNat_lt
  exact hw.map fun r s h => ⟨by rw [h.1, UInt32.ofNat_toNat], h.2⟩

theorem getU64_at (v : UInt64) :
    Triple b (At b (putU64 v ++ rest)) getU64 (fun r s => r = v ∧ At b rest s) E := by
  have hw : Triple b (At b (putU64 v ++ rest)) (Reader.word 8)
      (fun r s => r = v.toNat ∧ At b rest s) E := word_at (k := 8) v.toNat_lt
  exact hw.map fun r s h => ⟨by rw [h.1, UInt64.ofNat_toNat], h.2⟩

theorem nextByte_at (x : UInt8) :
    Triple b (At b (x :: rest)) nextByte (fun r s => r = x ∧ At b rest s) E := by
  have ht : Triple b (At b ([x] ++ rest)) (Reader.take 1)
      (fun v s => v = [x] ∧ At b rest s) E := take_at rfl
  exact ht.map fun r s h => ⟨by rw [h.1]; rfl, h.2⟩

theorem decodeDim_at (d : Int64) :
    Triple b (At b (putU64 d.toUInt64 ++ rest)) decodeDim (fun r s => r = d ∧ At b rest s) E :=
  (getU64_at _).map fun r s h => ⟨by rw [h.1]; rfl, h.2⟩

/-- A check that every buffer with this unread part passes. -/
theorem require_at {c : Bool} (hc : rest.length ≤ b.bytes.length → c = true) :
    Triple b (At b rest) (Reader.require c) (fun r s => r = () ∧ At b rest s) E := by
  have ht (s : Cursor Slot) (h : At b rest s) : c = true := hc (by have := h.length; omega)
  exact Triple.require (fun _ s h => ⟨rfl, h⟩)
    fun hf s h => absurd ((ht s h).symm.trans hf) (by decide)

theorem size_at : Triple b (At (κ := Slot) b rest) Reader.size
    (fun n s => n = b.size ∧ At b rest s) E :=
  Triple.size fun _ h => ⟨rfl, h⟩

theorem alloc_at (kind : Slot) (count : ℕ) : Triple b (At b rest) (Reader.alloc kind count)
    (fun r s => r = () ∧ At b rest s) E :=
  fun _ h => ⟨rfl, h.ok, h.off_le, h.drop⟩

theorem need_require_at {m : LoadReader α} {k : UInt64} (hk : k.toNat ≤ rest.length)
    (hm : Triple b (At b rest) m Q E) :
    Triple b (At b rest) (Reader.need k >>= fun r => Reader.require r >>= fun _ => m) Q E :=
  (need_at hk).bind_eq ((require_at fun _ => rfl).bind_eq hm)

/-- The checks before an allocation pass if no more slots are filled than bytes are left. -/
theorem reserve_at {m : LoadReader α} {n : UInt32} {kind : Slot} (hn : n.toNat ≤ rest.length)
    (hm : Triple b (At b rest) m Q E) :
    Triple b (At b rest) (do
      Reader.require (← Reader.isOk)
      Reader.require (n.toUInt64 ≤ (← Reader.size))
      Reader.alloc kind n.toNat
      m) Q E := by
  apply isOk_at.bind_eq
  apply (require_at fun _ => rfl).bind_eq
  apply size_at.bind_eq
  refine (require_at fun hle => ?_).bind_eq ((alloc_at _ _).bind_eq hm)
  rw [decide_eq_true_iff, UInt64.le_iff_toNat_le, UInt32.toNat_toUInt64, Buffer.toNat_size]
  exact Nat.le_trans hn hle

theorem decodeTensor_at {io : IOTensor} (h : io.Encodable) :
    Triple b (At b (packTensor io ++ rest)) decodeTensor (fun r s => r = io ∧ At b rest s) E := by
  have hname := toNat_ofNat32 h.name_lt
  have hrank := toNat_ofNat32 h.rank_lt
  simp only [packTensor, List.append_assoc, List.cons_append, List.nil_append]
  apply need_require_at
  · simp only [List.length_cons, UInt64.reduceToNat]
    omega
  apply (nextByte_at _).bind_eq
  apply (nextByte_at _).bind_eq
  apply (getU32_at _).bind_eq
  apply (getU32_at _).bind_eq
  apply need_require_at
  · rw [UInt32.toNat_toUInt64, hname, List.length_append]
    omega
  refine (take_at ?_).bind_eq ((getU32_at _).bind_eq ?_)
  · rw [UInt32.toNat_toUInt64, hname]
  apply reserve_at
  · rw [hrank, List.length_append, length_packDims]
    omega
  rw [hrank]
  apply (times_at fun d _ rest => decodeDim_at d).bind_eq
  apply Triple.pure
  refine fun s hs => ⟨?_, hs⟩
  rw [uint32_roundtrip h.bytesPerElem_lt, datatype_roundtrip h.datatype_nonneg h.datatype_lt]

theorem decodeBody_at {ios : List IOTensor} {mxr : Bytes} (hios : ∀ io ∈ ios, io.Encodable)
    (hlen : ios.length < 2 ^ 32) (hmxr : mxr.length < 2 ^ 64) :
    Triple b (At b (putU32 (UInt32.ofNat ios.length) ++ (ios.flatMap packTensor ++
      (putU64 (UInt64.ofNat mxr.length) ++ (mxr ++ rest))))) decodeBody
      (fun r s => r = (ios, mxr) ∧ At b (mxr ++ rest) s) E := by
  have hcount := toNat_ofNat32 hlen
  have hsize := toNat_ofNat64 hmxr
  apply (getU32_at _).bind_eq
  apply reserve_at
  · have := length_le_packTensors ios
    rw [hcount, List.length_append]
    omega
  rw [hcount]
  apply (times_at fun io hio rest => decodeTensor_at (hios io hio)).bind_eq
  apply (getU64_at _).bind_eq
  apply isOk_at.bind_eq
  apply (require_at fun _ => rfl).bind_eq
  apply need_require_at
  · rw [List.length_append]
    omega
  exact (view_at hsize.symm).bind_eq (Triple.pure fun s hs => ⟨rfl, hs⟩)

/-- Decoding what `packBlob` wrote, with anything after it, gives back the IO tensors and the
program bytes. -/
theorem decode_packBlob_append {ios : List IOTensor} {mxr : Bytes}
    (hios : ∀ io ∈ ios, io.Encodable) (hlen : ios.length < 2 ^ 32)
    (hb : b.bytes = packBlob ios mxr ++ rest) : (decode b).1 = .accepted ios mxr := by
  have hmagic : kMagic.length = 8 := by decide
  have hl := congrArg List.length hb
  simp only [packBlob, List.length_append, hmagic, length_putU32, length_putU64] at hl
  have hn := b.length_lt
  have hsize : ¬ b.size < 8 := by
    rw [UInt64.lt_iff_toNat_lt, Buffer.toNat_size]
    simp only [UInt64.reduceToNat]
    omega
  simp only [packBlob, List.append_assoc] at hb
  have htake : b.bytes.take 8 = kMagic := by rw [hb, ← hmagic, List.take_left]
  have hstart : At b (b.bytes.drop 8) afterMagic :=
    ⟨rfl, by simp only [afterMagic, UInt64.reduceToNat]; omega, rfl⟩
  rw [hb, ← hmagic, List.drop_left] at hstart
  have hbody := decodeBody_at (E := fun _ => False) hios hlen (by omega) _ hstart
  simp only [decode, hsize, htake, if_false, ne_eq, not_true_eq_false]
  match hr : decodeBody b afterMagic with
  | (some r, s) => rw [hr] at hbody; rw [hbody.1]
  | (none, s) => rw [hr] at hbody; exact hbody.elim

/-- Decoding what `packBlob` wrote gives back the IO tensors and the program bytes. -/
theorem decode_packBlob {ios : List IOTensor} {mxr : Bytes} (hios : ∀ io ∈ ios, io.Encodable)
    (hlen : ios.length < 2 ^ 32) (hb : b.bytes = packBlob ios mxr) :
    (decode b).1 = .accepted ios mxr :=
  decode_packBlob_append hios hlen (hb.trans (List.append_nil _).symm)

end TrtShim.Backend
