import TrtShim.Backend.RoundTrip
import TrtShim.Bytes.Consumed

/-! # The blobs that decoding accepts

Decoding accepts the packed blobs, with anything after them, and nothing else.
The directions of the IO tensors are not checked. A packed blob is determined by
what it holds, so no part of one that stops short is accepted.
-/

namespace TrtShim.Backend

open Reading

variable {b : Buffer} {pre : Bytes} {φ : Prop} {E : Cursor Slot → Prop}

theorem getU32_consumed : Triple b (Consumed b pre φ) getU32
    (fun v => Consumed b (pre ++ putU32 v) φ) E :=
  (word_consumed 4).map fun v s h => by
    have hv : (UInt32.ofNat v).toNat = v := toNat_ofNat32 h.2
    rw [putU32, hv]
    exact h.1

theorem getU64_consumed : Triple b (Consumed b pre φ) getU64
    (fun v => Consumed b (pre ++ putU64 v) φ) E :=
  (word_consumed 8).map fun v s h => by
    have hv : (UInt64.ofNat v).toNat = v := toNat_ofNat64 h.2
    rw [putU64, hv]
    exact h.1

theorem nextByte_consumed (r : ℕ) : Triple b (Ready b pre φ (1 + r)) nextByte
    (fun v => Ready b (pre ++ [v]) φ r) E :=
  (take_consumed 1 r).map fun v s h => by
    obtain ⟨x, rfl⟩ := List.length_eq_one_iff.mp h.2
    exact h.1

theorem decodeDim_consumed : Triple b (Consumed b pre φ) decodeDim
    (fun d => Consumed b (pre ++ putU64 d.toUInt64) (φ ∧ True)) E :=
  getU64_consumed.map fun v s h hok => by
    obtain ⟨hoff, hpre, hφ⟩ := h hok
    exact ⟨hoff, hpre, hφ, trivial⟩

theorem toInt_datatype (d : UInt8) : d.toUInt32.toInt32.toInt = d.toNat := by
  have hd := d.toNat_lt
  change d.toUInt32.toBitVec.toInt = _
  rw [BitVec.toInt_eq_toNat_of_lt]
  · rfl
  · change 2 * d.toUInt32.toNat < _
    rw [UInt8.toNat_toUInt32]
    omega

/-- An IO tensor that was read is encodable, and its encoding has been consumed. -/
theorem decodeTensor_consumed (hE : ∀ s, E s) : Triple b (Consumed b pre φ) decodeTensor
    (fun io => Consumed b (pre ++ packTensor io) (φ ∧ io.Encodable)) E := by
  apply need_require_consumed _ hE
  apply (nextByte_consumed 1).bind
  intro dir
  apply (nextByte_consumed 0).bind
  intro datatype
  apply (getU32_consumed.pre fun s h => h.1).bind
  intro bpe
  apply getU32_consumed.bind
  intro namelen
  apply need_require_consumed _ hE
  apply (take_consumed namelen.toUInt64 0).bind
  intro name
  apply Triple.of_and
  intro hname
  apply (getU32_consumed.pre fun s h => h.1).bind
  intro ndim
  apply Triple.isOk_require fun s _ => hE s
  apply Triple.size_require fun s _ => hE s
  intro _
  apply ((alloc_consumed _ _).pre fun s h => h.1).bind
  intro _
  apply (times_consumed (fun _ _ => decodeDim_consumed) _).bind
  intro dims
  apply Triple.of_and
  intro hdims
  apply Triple.pure
  intro s h hok
  obtain ⟨hoff, hpre, hφ, -⟩ := h hok
  rw [UInt32.toNat_toUInt64] at hname
  have hnamelen : UInt32.ofNat name.length = namelen := by rw [hname, UInt32.ofNat_toNat]
  have hndim : UInt32.ofNat dims.length = ndim := by rw [hdims, UInt32.ofNat_toNat]
  refine ⟨hoff, ?_, hφ, ?_⟩
  · rw [hpre]
    simp [packTensor, hnamelen, hndim]
  · constructor
    · rw [toInt_datatype]
      omega
    · rw [toInt_datatype]
      have := datatype.toNat_lt
      omega
    · rw [UInt32.toNat_toUInt64]
      exact bpe.toNat_lt
    · rw [hname]
      exact namelen.toNat_lt
    · rw [hdims]
      exact ndim.toNat_lt

/-- The body of a blob that was read is packed, up to what follows the program. -/
theorem decodeBody_consumed (hE : ∀ s, E s) : Triple b (Consumed b kMagic True) decodeBody
    (fun r _ => (∃ rest, b.bytes = packBlob r.1 r.2 ++ rest) ∧ (∀ io ∈ r.1, io.Encodable) ∧
      r.1.length < 2 ^ 32) E := by
  apply getU32_consumed.bind
  intro nIo
  apply Triple.isOk_require fun s _ => hE s
  apply Triple.size_require fun s _ => hE s
  intro _
  apply ((alloc_consumed _ _).pre fun s h => h.1).bind
  intro _
  apply (times_consumed (fun _ _ => decodeTensor_consumed hE) _).bind
  intro ios
  apply Triple.of_and
  intro hios
  apply getU64_consumed.bind
  intro mxrLen
  apply Triple.isOk_require fun s _ => hE s
  apply (need_require_consumed _ hE).pre fun s h => h.1
  apply (view_consumed mxrLen).bind
  intro mxr
  apply Triple.pure
  rintro s ⟨⟨rest, hb⟩, hmxr, -, henc⟩
  have hcount : UInt32.ofNat ios.length = nIo := by rw [hios, UInt32.ofNat_toNat]
  have hsize : UInt64.ofNat mxr.length = mxrLen := by rw [hmxr, UInt64.ofNat_toNat]
  refine ⟨⟨rest, ?_⟩, henc, hios ▸ nIo.toNat_lt⟩
  rw [hb, packBlob, hcount, hsize]

/-- Decoding accepts a blob exactly if it is a packed one, up to what follows the program. -/
theorem decode_accepted_iff {ios : List IOTensor} {mxr : Bytes} :
    (decode b).1 = .accepted ios mxr ↔ (∀ io ∈ ios, io.Encodable) ∧ ios.length < 2 ^ 32 ∧
      ∃ rest, b.bytes = packBlob ios mxr ++ rest := by
  constructor
  · intro h
    unfold decode at h
    split at h
    next => exact Decoded.noConfusion h
    next hsize =>
      split at h
      next => exact Decoded.noConfusion h
      next hmagic =>
        rw [UInt64.lt_iff_toNat_lt, Buffer.toNat_size, Nat.not_lt] at hsize
        have hstart : Consumed b kMagic True afterMagic :=
          fun _ => ⟨hsize, not_not.mp hmagic, trivial⟩
        have hbody := decodeBody_consumed (E := fun _ => True) (fun _ => trivial) _ hstart
        rcases hr : decodeBody b afterMagic with ⟨_ | ⟨ios', mxr'⟩, s⟩
        · rw [hr] at h
          exact Decoded.noConfusion h
        · rw [hr] at h hbody
          obtain ⟨rfl, rfl⟩ := Decoded.accepted.inj h
          exact ⟨hbody.2.1, hbody.2.2, hbody.1⟩
  · rintro ⟨henc, hlen, rest, hb⟩
    exact decode_packBlob_append henc hlen hb

/-- A packed blob that starts another one is the other one. -/
theorem eq_of_packBlob_prefix {ios ios' : List IOTensor} {mxr mxr' : Bytes}
    (henc : ∀ io ∈ ios, io.Encodable) (hlen : ios.length < 2 ^ 32)
    (henc' : ∀ io ∈ ios', io.Encodable) (hlen' : ios'.length < 2 ^ 32)
    (hb : b.bytes = packBlob ios' mxr') (hp : packBlob ios mxr <+: packBlob ios' mxr') :
    ios = ios' ∧ mxr = mxr' := by
  obtain ⟨rest, hrest⟩ := hp
  have h := decode_packBlob_append henc hlen (hb.trans hrest.symm)
  rw [decode_packBlob henc' hlen' hb] at h
  obtain ⟨rfl, rfl⟩ := Decoded.accepted.inj h
  exact ⟨rfl, rfl⟩

/-- Nothing that stops short of a packed blob is accepted. -/
theorem not_accepted_of_prefix {ios : List IOTensor} {mxr : Bytes} {whole : Buffer}
    (henc : ∀ io ∈ ios, io.Encodable) (hlen : ios.length < 2 ^ 32)
    (hw : whole.bytes = packBlob ios mxr) (hp : b.bytes <+: whole.bytes)
    (hne : b.bytes ≠ whole.bytes) (ios' : List IOTensor) (mxr' : Bytes) :
    (decode b).1 ≠ .accepted ios' mxr' := by
  intro h
  obtain ⟨henc', hlen', rest, hrest⟩ := decode_accepted_iff.mp h
  have hp' : packBlob ios' mxr' <+: packBlob ios mxr :=
    hw ▸ List.IsPrefix.trans ⟨rest, hrest.symm⟩ hp
  obtain ⟨rfl, rfl⟩ := eq_of_packBlob_prefix henc' hlen' henc hlen hw hp'
  apply hne
  apply hp.eq_of_length_le
  rw [hw, hrest, List.length_append]
  omega

/-- The format of an engine blob: a packed list of IO tensors whose directions are values of
`IODir`, with a program. -/
def InFormat (bytes : Bytes) : Prop :=
  ∃ ios mxr, (∀ io ∈ ios, io.Encodable ∧ (io.dir = .kInput ∨ io.dir = .kOutput)) ∧
    ios.length < 2 ^ 32 ∧ bytes = packBlob ios mxr

/-- A blob that decoding accepts is in the format of an engine exactly if it is not a packed blob
with bytes after its program or with a direction that is no value of `IODir`. -/
theorem inFormat_of_accepted_iff (b : Buffer) :
    ((∃ ios mxr, (decode b).1 = .accepted ios mxr) → InFormat b.bytes) ↔
    ∀ ios mxr rest, (∀ io ∈ ios, io.Encodable) → ios.length < 2 ^ 32 →
      b.bytes = packBlob ios mxr ++ rest →
      rest = [] ∧ ∀ io ∈ ios, io.dir = .kInput ∨ io.dir = .kOutput := by
  constructor
  · intro h ios mxr rest henc hlen hb
    have hacc := decode_packBlob_append henc hlen hb
    obtain ⟨ios', mxr', hios', hlen', hb'⟩ := h ⟨ios, mxr, hacc⟩
    rw [decode_packBlob (fun io hio => (hios' io hio).1) hlen' hb'] at hacc
    obtain ⟨rfl, rfl⟩ := Decoded.accepted.inj hacc
    exact ⟨List.self_eq_append_right.mp (hb'.symm.trans hb), fun io hio => (hios' io hio).2⟩
  · rintro h ⟨ios, mxr, hacc⟩
    obtain ⟨henc, hlen, rest, hb⟩ := decode_accepted_iff.mp hacc
    obtain ⟨rfl, hdir⟩ := h ios mxr rest henc hlen hb
    exact ⟨ios, mxr, fun io hio => ⟨henc io hio, hdir io hio⟩, hlen, by simpa using hb⟩

/-- A byte after the program and a direction byte of two are both accepted. -/
theorem accepted_not_inFormat :
    let b : Buffer := ⟨packBlob [] [77] ++ [0], by decide +kernel⟩
    let ios : List IOTensor := [⟨text "x", [2], 4, 4, ⟨2⟩⟩]
    let b' : Buffer := ⟨packBlob ios [77], by decide +kernel⟩
    ((decode b).1 = .accepted [] [77] ∧ ¬ InFormat b.bytes) ∧
      (decode b').1 = .accepted ios [77] ∧ ¬ InFormat b'.bytes := by
  intro b ios b'
  have hacc : (decode b).1 = .accepted [] [77] := by decide +kernel
  have hacc' : (decode b').1 = .accepted ios [77] := by decide +kernel
  refine ⟨⟨hacc, ?_⟩, hacc', ?_⟩
  · rintro ⟨ios', mxr', hios', hlen', hb'⟩
    rw [decode_packBlob (fun io hio => (hios' io hio).1) hlen' hb'] at hacc
    obtain ⟨rfl, rfl⟩ := Decoded.accepted.inj hacc
    exact absurd hb' (by decide +kernel)
  · rintro ⟨ios', mxr', hios', hlen', hb'⟩
    rw [decode_packBlob (fun io hio => (hios' io hio).1) hlen' hb'] at hacc'
    obtain ⟨rfl, rfl⟩ := Decoded.accepted.inj hacc'
    exact absurd (hios' _ List.mem_cons_self).2 (by decide)

end TrtShim.Backend
