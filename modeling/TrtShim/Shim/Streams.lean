import TrtShim.Backend.Format
import TrtShim.Shim.Engine

/-! # Engines from streams

A stream is drained chunk by chunk before it is deserialized, so how it was cut
into chunks makes no difference. A stream that ends or fails before the last
byte of a packed engine gives no engine.
-/

namespace TrtShim.Shim

open Backend

/-- What a call of `read` returns, and the bytes at the front of its destination afterwards. -/
structure ReadResult where
  n : Int64
  tmp : Bytes

/-- An `IStreamReader`. -/
structure IStreamReader where
  State : Type
  read : State → Int64 → ReadResult × State

/-- An `IStreamReaderV2`. -/
structure IStreamReaderV2 where
  State : Type
  read : State → Int64 → Ptr → ReadResult × State

section Drain

variable {σ : Type} (read : σ → ReadResult × σ)

/-- The loop that appends what `read` delivers to `buf`. No value stands for a loop that has not
ended after this number of passes. -/
def drain : ℕ → σ → Bytes → Option Bytes
  | 0, _, _ => none
  | passes + 1, s, buf =>
    let (r, s) := read s
    if 0 < r.n then drain passes s (buf ++ r.tmp.take r.n.toNatClampNeg) else some buf

/-- From one state to another the reader delivers these chunks. -/
inductive Delivers : σ → List Bytes → σ → Prop where
  | nil (s : σ) : Delivers s [] s
  | cons {s s' : σ} {chunk : Bytes} {chunks : List Bytes} (hn : (read s).1.n.toInt = chunk.length)
      (htmp : chunk <+: (read s).1.tmp) (hpos : 0 < chunk.length) (hle : chunk.length ≤ 65536)
      (h : Delivers (read s).2 chunks s') : Delivers s (chunk :: chunks) s'

variable {read}

/-- Draining a reader that delivers some chunks and then no more gives their concatenation. -/
theorem drain_of_delivers {s s' : σ} {chunks : List Bytes} (h : Delivers read s chunks s')
    (hend : (read s').1.n ≤ 0) {passes : ℕ} (hp : chunks.length < passes) (buf : Bytes) :
    drain read passes s buf = some (buf ++ chunks.flatten) := by
  induction h generalizing passes buf with
  | nil s =>
    obtain ⟨passes, rfl⟩ := Nat.exists_eq_succ_of_ne_zero (Nat.ne_of_gt hp)
    rw [drain]
    simp [Int64.not_lt.mpr hend]
  | @cons s s' chunk chunks hn htmp hpos hle h ih =>
    rw [List.length_cons] at hp
    obtain ⟨passes, rfl⟩ := Nat.exists_eq_succ_of_ne_zero (by omega : passes ≠ 0)
    have hlt : 0 < (read s).1.n := by
      rw [Int64.lt_iff_toInt_lt, hn]
      exact Int.natCast_pos.mpr hpos
    have htake : (read s).1.tmp.take (read s).1.n.toNatClampNeg = chunk := by
      rw [Int64.toNatClampNeg, hn, Int.toNat_natCast]
      exact (List.prefix_iff_eq_take.mp htmp).symm
    rw [drain]
    simp only [hlt, if_true, htake]
    rw [ih hend (by omega), List.flatten_cons, List.append_assoc]

end Drain

variable (M : Migraphx) (host : Host)

/-- Deserialize what was drained from a stream. -/
def deserializeBuf (buf : Bytes) (files : TempFiles) : Option (ShimEngine M) × TempFiles :=
  if h : buf.length < 2 ^ 64 then deserializeCudaEngine M host ⟨buf, h⟩ files else (none, files)

/-- `deserializeCudaEngine` of an `IStreamReader`. -/
def deserializeReader (reader : IStreamReader) (passes : ℕ) (s : reader.State)
    (files : TempFiles) : Option (Option (ShimEngine M) × TempFiles) :=
  (drain (fun s => reader.read s 65536) passes s []).map fun buf => deserializeBuf M host buf files

/-- `deserializeCudaEngineV2`. -/
def deserializeCudaEngineV2 (reader : IStreamReaderV2) (passes : ℕ) (s : reader.State)
    (files : TempFiles) : Option (Option (ShimEngine M) × TempFiles) :=
  (drain (fun s => reader.read s 65536 0) passes s []).map fun buf =>
    deserializeBuf M host buf files

variable {M host}

theorem deserialize_drained {σ : Type} {read : σ → ReadResult × σ} {s s' : σ}
    {chunks : List Bytes} (h : Delivers read s chunks s') (hend : (read s').1.n ≤ 0) {passes : ℕ}
    (hp : chunks.length < passes) {b : Buffer} (hb : b.bytes = chunks.flatten) (files : TempFiles) :
    (drain read passes s []).map (fun buf => deserializeBuf M host buf files) =
      some (deserializeCudaEngine M host b files) := by
  have hlen : chunks.flatten.length < 2 ^ 64 := hb ▸ b.length_lt
  obtain ⟨bytes, length_lt⟩ := b
  obtain rfl : bytes = chunks.flatten := hb
  rw [drain_of_delivers h hend hp, List.nil_append, Option.map_some, deserializeBuf, dif_pos hlen]

/-- No engine is made of a part of a packed blob that stops short. -/
theorem load_truncated {ios : List IOTensor} {mxr : Bytes} {whole b : Buffer}
    (henc : ∀ io ∈ ios, io.Encodable) (hlen : ios.length < 2 ^ 32)
    (hw : whole.bytes = packBlob ios mxr) (hp : b.bytes <+: whole.bytes)
    (hne : b.bytes ≠ whole.bytes) (files : TempFiles) :
    (load M host b files).handed = none ∧ (load M host b files).engine = none := by
  have hhanded : (load M host b files).handed = none := by
    rw [Option.eq_none_iff_forall_ne_some]
    intro mxr' hm
    obtain ⟨ios', hacc⟩ := (load_handed host b files mxr').mp hm
    exact not_accepted_of_prefix henc hlen hw hp hne ios' mxr' hacc
  exact ⟨hhanded, (load_rejected host b files hhanded).1⟩

theorem deserialize_truncated {ios : List IOTensor} {mxr : Bytes} {whole b : Buffer}
    (henc : ∀ io ∈ ios, io.Encodable) (hlen : ios.length < 2 ^ 32)
    (hw : whole.bytes = packBlob ios mxr) (hp : b.bytes <+: whole.bytes)
    (hne : b.bytes ≠ whole.bytes) (files : TempFiles) :
    (deserializeCudaEngine M host b files).1 = none := by
  rw [deserializeCudaEngine]
  simp [(load_truncated henc hlen hw hp hne files).2]

/-- A part of a packed blob that stops short is rejected before MIGraphX sees anything of it, and
no packed blob starts another one. A stream deserializes as the concatenation of its chunks does,
so one that ends or fails before the last byte of a packed blob gives no engine. -/
theorem truncated_rejected (M : Migraphx) (host : Host) (ios : List IOTensor) (mxr : Bytes)
    (whole : Buffer) (henc : ∀ io ∈ ios, io.Encodable) (hlen : ios.length < 2 ^ 32)
    (hw : whole.bytes = packBlob ios mxr) (files : TempFiles) :
    (∀ b : Buffer, b.bytes <+: whole.bytes → b.bytes ≠ whole.bytes →
      (load M host b files).handed = none ∧ (load M host b files).engine = none) ∧
    (∀ ios' mxr', (∀ io ∈ ios', io.Encodable) → ios'.length < 2 ^ 32 →
      packBlob ios' mxr' <+: packBlob ios mxr → ios' = ios ∧ mxr' = mxr) ∧
    (∀ (reader : IStreamReader) (s s' : reader.State) (chunks : List Bytes) (b : Buffer)
      (passes : ℕ), Delivers (fun s => reader.read s 65536) s chunks s' →
      (reader.read s' 65536).1.n ≤ 0 → b.bytes = chunks.flatten → chunks.length < passes →
      deserializeReader M host reader passes s files =
          some (deserializeCudaEngine M host b files) ∧
        (b.bytes <+: whole.bytes → b.bytes ≠ whole.bytes →
          (deserializeCudaEngine M host b files).1 = none)) ∧
    ∀ (reader : IStreamReaderV2) (s s' : reader.State) (chunks : List Bytes) (b : Buffer)
      (passes : ℕ), Delivers (fun s => reader.read s 65536 0) s chunks s' →
      (reader.read s' 65536 0).1.n ≤ 0 → b.bytes = chunks.flatten → chunks.length < passes →
      deserializeCudaEngineV2 M host reader passes s files =
          some (deserializeCudaEngine M host b files) ∧
        (b.bytes <+: whole.bytes → b.bytes ≠ whole.bytes →
          (deserializeCudaEngine M host b files).1 = none) := by
  refine ⟨fun b hp hne => load_truncated henc hlen hw hp hne files, ?_, ?_, ?_⟩
  · exact fun ios' mxr' henc' hlen' hp => eq_of_packBlob_prefix henc' hlen' henc hlen hw hp
  · intro reader s s' chunks b passes hd hend hb hp
    exact ⟨deserialize_drained hd hend hp hb files,
      fun hprefix hne => deserialize_truncated henc hlen hw hprefix hne files⟩
  · intro reader s s' chunks b passes hd hend hb hp
    exact ⟨deserialize_drained hd hend hp hb files,
      fun hprefix hne => deserialize_truncated henc hlen hw hprefix hne files⟩

/-- A reader that delivers its chunks one by one and then reports an error. -/
def IStreamReader.ofChunks : IStreamReader where
  State := List Bytes
  read
    | [], _ => (⟨-1, []⟩, [])
    | chunk :: chunks, _ => (⟨Int64.ofNat chunk.length, chunk⟩, chunks)

theorem truncated_rejected_stream :
    let ios : List IOTensor := [⟨text "x", [-1, 3], 4, 4, .kInput⟩]
    let chunks := [(packBlob ios [77]).take 5, ((packBlob ios [77]).drop 5).take 20]
    (deserializeReader (.single [] []) .plain .ofChunks 3 chunks []).map Prod.fst = some none := by
  intro ios chunks
  let whole : Buffer := ⟨packBlob ios [77], by decide +kernel⟩
  let b : Buffer := ⟨chunks.flatten, by decide +kernel⟩
  have hd : Delivers (fun s => IStreamReader.ofChunks.read s 65536) chunks chunks [] :=
    .cons (by decide +kernel) (by decide +kernel) (by decide +kernel) (by decide +kernel)
      (.cons (by decide +kernel) (by decide +kernel) (by decide +kernel) (by decide +kernel)
        (.nil _))
  have h := (truncated_rejected (.single [] []) .plain ios [77] whole (by decide +kernel)
    (by decide) rfl []).2.2.1 .ofChunks chunks [] chunks b 3 hd (by decide) rfl (by decide)
  rw [h.1, Option.map_some, h.2 (by decide +kernel) (by decide +kernel)]

end TrtShim.Shim
