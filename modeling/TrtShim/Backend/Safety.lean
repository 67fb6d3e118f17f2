import TrtShim.Backend.Blob
import TrtShim.Bytes.Bounds

/-! # Decoding arbitrary bytes

Whatever bytes, lengths and counts a blob holds, the decoding stage of `load`
reads only inside the blob, never recovers from a failed check, and allocates a
number of slots that the size of the blob bounds.
-/

namespace TrtShim.Backend

open Reading

variable {b : Buffer} {t : ℕ}

/-- The slots that a run has allocated. -/
def account (tensors dims : ℕ) : Slot → ℕ
  | .tensor => tensors
  | .dim => dims

/-- What holds of a run of the decoder wherever it stops. -/
structure Bounded (b : Buffer) (s : Cursor Slot) : Prop where
  sound : s.Sound b.bytes.length
  tensors : s.slots .tensor ≤ 2 * b.bytes.length
  dims : s.slots .dim ≤ 2 * b.bytes.length
  steps : s.trail.length ≤ 16 * b.bytes.length + 8

theorem bounded_of_paid {c tensors dims : ℕ} {s : Cursor Slot}
    (h : Paid b c (account tensors dims) t s) (ht : tensors ≤ b.bytes.length)
    (hd : dims ≤ 2 * b.bytes.length) (hs : t ≤ 16 * b.bytes.length + 8) : Bounded b s where
  sound := h.sound
  tensors := by rw [h.slots]; exact Nat.le_trans ht (by omega)
  dims := by rw [h.slots]; exact hd
  steps := Nat.le_trans h.steps hs

variable {c : ℕ} {f : Slot → ℕ} {E : Cursor Slot → Prop}

theorem getU32_paid : Triple b (Paid b c f t) getU32 (fun _ => Paid b (c + 4) f (t + 2)) E :=
  (word_paid 4).map fun _ _ h => h

theorem getU64_paid : Triple b (Paid b c f t) getU64 (fun _ => Paid b (c + 8) f (t + 2)) E :=
  (word_paid 8).map fun _ _ h => h

theorem nextByte_paid (r : ℕ) : Triple b (Checked b c f t (1 + r)) nextByte
    (fun _ => Checked b (c + 1) f (t + 1) r) E :=
  (take_paid 1 r).map fun _ _ h => h

theorem alloc_dim {tensors dims count : ℕ} :
    (fun k => (if Slot.dim = k then count else 0) + account tensors dims k) =
      account tensors (dims + count) := by
  funext k
  cases k <;> simp [account, Nat.add_comm]

/-- The state of the decoder between two IO tensors: eight bytes of the blob for each dimension
allocated so far, unless a read has failed. -/
def Between (b : Buffer) (tensors t : ℕ) (s : Cursor Slot) : Prop :=
  ∃ dims, Paid b (8 * dims) (account tensors dims) (t + 2 * dims) s ∧
    dims ≤ 2 * b.bytes.length

theorem decodeTensor_bounded {tensors : ℕ} (ht : tensors ≤ b.bytes.length)
    (hs : t + 12 + 4 * b.bytes.length ≤ 16 * b.bytes.length + 8) :
    Triple b (Between b tensors t) decodeTensor (fun _ => Between b tensors (t + 12))
      (Bounded b) := by
  apply Triple.of_exists
  intro dims
  apply Triple.of_and
  intro hd
  refine need_require_paid ?_ fun s h => bounded_of_paid h ht hd (by omega)
  apply (nextByte_paid 1).bind
  intro dir
  apply (nextByte_paid 0).bind
  intro datatype
  apply (getU32_paid.pre fun s h => h.1).bind
  intro bpe
  apply getU32_paid.bind
  intro namelen
  refine need_require_paid ?_ fun s h => bounded_of_paid h ht hd (by omega)
  apply (take_paid namelen.toUInt64 0).bind
  intro name
  apply (getU32_paid.pre fun s h => h.1).bind
  intro ndim
  apply Triple.isOk_require fun s h => bounded_of_paid h ht hd (by omega)
  apply Triple.size_require fun s h => bounded_of_paid h.1 ht hd (by omega)
  intro hndim
  rw [UInt32.toNat_toUInt64] at hndim
  have hsum (s : Cursor Slot) (h : Paid b (8 * dims + 1 + 1 + 4 + 4 + namelen.toUInt64.toNat + 4)
      (account tensors dims) (t + 2 * dims + 1 + 1 + 1 + 2 + 2 + 1 + 1 + 2) s ∧ s.ok = true) :
      dims + ndim.toNat ≤ 2 * b.bytes.length := by
    have := h.1.paid h.2
    have := h.1.sound.off_le
    omega
  apply Triple.given hsum
  intro hle
  apply ((alloc_paid _ _).pre fun s h => h.1).bind
  intro _
  rw [alloc_dim]
  apply (times_paid (fun c t => getU64_paid.map fun _ _ h => h) _).bind
  intro ds
  exact Triple.pure fun s h => ⟨dims + ndim.toNat, h.mono (by omega) (by omega), hle⟩

theorem afterMagic_paid (hb : 8 ≤ b.bytes.length) :
    Paid b 8 (account 0 0) 1 afterMagic where
  sound := by
    refine ⟨hb, ?_, fun _ => by simp [afterMagic], by simp [afterMagic]⟩
    simpa [afterMagic, Event.Within] using hb
  paid _ := Nat.le_refl 8
  slots kind := by cases kind <;> rfl
  steps := Nat.le_refl 1

theorem decodeBody_bounded (hb : 8 ≤ b.bytes.length) :
    Triple b (· = afterMagic) decodeBody (fun _ s => Bounded b s ∧ s.ok = true) (Bounded b) := by
  refine Triple.pre ?_ fun s hs => hs ▸ afterMagic_paid hb
  apply getU32_paid.bind
  intro nIo
  apply Triple.isOk_require fun s h => bounded_of_paid h (by omega) (by omega) (by omega)
  apply Triple.size_require fun s h => bounded_of_paid h.1 (by omega) (by omega) (by omega)
  intro hn
  rw [UInt32.toNat_toUInt64] at hn
  have hslots : (fun k => (if Slot.tensor = k then nIo.toNat else 0) + account 0 0 k) =
      account nIo.toNat 0 := by
    funext k
    cases k <;> rfl
  apply ((alloc_paid _ _).pre fun s h => h.1).bind
  intro _
  rw [hslots]
  have hloop : Triple b (Between b nIo.toNat (4 + 12 * 0)) (Reader.times nIo.toNat decodeTensor)
      (fun _ => Between b nIo.toNat (4 + 12 * nIo.toNat)) (Bounded b) :=
    Triple.times (I := fun i => Between b nIo.toNat (4 + 12 * i))
      fun i hi => decodeTensor_bounded hn (by omega)
  apply (hloop.pre fun s h => ⟨0, h.mono (by omega) (by omega), by omega⟩).bind
  intro ios
  apply Triple.of_exists
  intro dims
  apply Triple.of_and
  intro hd
  apply getU64_paid.bind
  intro mxrLen
  apply Triple.isOk_require fun s h => bounded_of_paid h hn hd (by omega)
  refine (need_require_paid ?_ fun s h => bounded_of_paid h hn hd (by omega)).pre fun s h => h.1
  apply (view_paid mxrLen).bind
  intro mxr
  apply Triple.pure
  intro s h
  exact ⟨bounded_of_paid h.1 hn hd (by omega), h.2⟩

/-- Wherever the decoding stage stops, its run was bounded, and it has accepted the blob only if
no check failed. -/
theorem decode_bounded (b : Buffer) :
    Bounded b (decode b).2 ∧
      ∀ ios mxr, (decode b).1 = .accepted ios mxr → (decode b).2.ok = true := by
  have hsize : b.size < 8 ↔ b.bytes.length < 8 := by
    rw [UInt64.lt_iff_toNat_lt, Buffer.toNat_size]
    rfl
  unfold decode
  split
  next => exact ⟨⟨⟨by simp, by simp, by simp, by simp⟩, by simp [Cursor.slots],
      by simp [Cursor.slots], by simp⟩, by simp⟩
  next hn =>
    have hb : 8 ≤ b.bytes.length := by rw [hsize] at hn; omega
    split
    next => exact ⟨⟨⟨by simp, by simpa [Event.Within] using hb, by simp, by simp⟩,
        by simp [Cursor.slots, Action.slots], by simp [Cursor.slots, Action.slots], by simp⟩,
        by simp⟩
    next =>
      have h := decodeBody_bounded hb afterMagic rfl
      rcases hr : decodeBody b afterMagic with ⟨_ | ⟨ios, mxr⟩, s⟩
      · rw [hr] at h
        exact ⟨h, fun _ _ hd => Decoded.noConfusion hd⟩
      · rw [hr] at h
        exact ⟨h.1, fun _ _ _ => h.2⟩

end TrtShim.Backend
