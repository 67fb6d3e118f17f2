import TrtShim.Backend.Engine
import TrtShim.Backend.RoundTrip
import TrtShim.Backend.Safety
import TrtShim.Backend.TempFile

/-! # Loading an engine

`load` decodes a blob and hands the program bytes to MIGraphX. It is safe on
arbitrary bytes, and it makes the engine of a packed blob.
-/

namespace TrtShim.Backend

open Reading

variable {M : Migraphx}

/-- What a call of `load` did: the engine, the text left in `err`, the bytes handed to
`program_from_bytes`, the cursor over the blob, and the temporary files. -/
structure Loaded (M : Migraphx) where
  engine : Option (EngineImpl M) := none
  err : Option String := none
  handed : Option Bytes := none
  cursor : Cursor Slot
  files : TempFiles

/-- `load`. -/
def load (M : Migraphx) (host : Host) (b : Buffer) (files : TempFiles) : Loaded M :=
  match decode b with
  | (.foreign, cursor) =>
    { err := "not a trt-shim-rocm engine (NVIDIA .engine blobs are not supported)",
      cursor, files }
  | (.corrupt, cursor) =>
    { err := "corrupt or truncated trt-shim-rocm engine", cursor, files }
  | (.accepted ios mxr, cursor) =>
    match programFromBytes M host mxr files with
    | (.error what, files) => { err := what, handed := mxr, cursor, files }
    | (.ok prog, files) => { engine := some ⟨prog, ios⟩, handed := mxr, cursor, files }

variable (host : Host) (b : Buffer) (files : TempFiles)

theorem load_cursor : (load M host b files).cursor = (decode b).2 := by
  unfold load
  split
  next h => rw [h]
  next h => rw [h]
  next h => split <;> rw [h]

theorem load_accepted {ios : List IOTensor} {mxr : Bytes} (h : (decode b).1 = .accepted ios mxr) :
    load M host b files = match programFromBytes M host mxr files with
      | (.error what, files) =>
        { err := what, handed := mxr, cursor := (decode b).2, files }
      | (.ok prog, files) =>
        { engine := some ⟨prog, ios⟩, handed := mxr, cursor := (decode b).2, files } := by
  rw [load]
  rcases hd : decode b with ⟨decoded, cursor⟩
  rw [hd] at h
  obtain rfl : decoded = .accepted ios mxr := h
  rfl

/-- The program bytes are handed on exactly when decoding has accepted the blob. -/
theorem load_handed (mxr : Bytes) :
    (load M host b files).handed = some mxr ↔ ∃ ios, (decode b).1 = .accepted ios mxr := by
  unfold load
  split
  next h => simp [h]
  next h => simp [h]
  next h => split <;> simp [h]

theorem load_rejected (h : (load M host b files).handed = none) :
    (load M host b files).engine = none ∧
      ∃ what, (load M host b files).err = some what ∧ what ≠ "" := by
  unfold load at h ⊢
  split at h
  next hd => exact ⟨rfl, _, rfl, by decide⟩
  next hd => exact ⟨rfl, _, rfl, by decide⟩
  next hd => split at h <;> exact absurd h (by simp)

/-- Whatever bytes a blob holds, `load` reads inside it, gives up for good after a failed check,
reports a failed decoding, and allocates and runs in proportion to the size of the blob. -/
theorem load_safe (M : Migraphx) (host : Host) (b : Buffer) (files : TempFiles) :
    let r := load M host b files
    let n := b.bytes.length
    (∀ e ∈ r.cursor.trail, ∀ start len, e.action = .read start len →
      start.toNat + len.toNat ≤ n) ∧
    (∀ e ∈ r.cursor.trail, e.off.toNat ≤ n) ∧
    r.cursor.trail.Pairwise (fun later earlier => later.ok = true → earlier.ok = true) ∧
    ((∃ e ∈ r.cursor.trail, e.ok = false) → r.handed = none) ∧
    ((∀ ios mxr, (decode b).1 ≠ .accepted ios mxr) → r.handed = none) ∧
    (r.handed = none → r.engine = none ∧ ∃ what, r.err = some what ∧ what ≠ "") ∧
    r.cursor.slots .tensor ≤ 2 * n ∧ r.cursor.slots .dim ≤ 2 * n ∧
    r.cursor.trail.length ≤ 16 * n + 8 := by
  intro r n
  obtain ⟨hbd, hok⟩ := decode_bounded b
  have hnone (h : ∀ ios mxr, (decode b).1 ≠ .accepted ios mxr) : r.handed = none := by
    refine Option.eq_none_iff_forall_ne_some.mpr fun mxr hm => ?_
    obtain ⟨ios, hacc⟩ := (load_handed host b files mxr).mp hm
    exact h ios mxr hacc
  have hfail (h : ∃ e ∈ (decode b).2.trail, e.ok = false) : r.handed = none := by
    refine hnone fun ios mxr hacc => ?_
    obtain ⟨e, he, hf⟩ := h
    rw [hbd.sound.sticky (hok ios mxr hacc) e he] at hf
    exact absurd hf (by decide)
  rw [load_cursor host b files]
  exact ⟨fun e he => (hbd.sound.within e he).2, fun e he => (hbd.sound.within e he).1,
    hbd.sound.ordered, hfail, hnone, load_rejected host b files, hbd.tensors, hbd.dims,
    hbd.steps⟩

variable {host b files} {ios : List IOTensor} {mxr : Bytes} {prog : M.Program}

/-- An engine has the IO tensors of the blob it was loaded from. -/
theorem accepted_of_load {e : EngineImpl M} (h : (load M host b files).engine = some e) :
    ∃ mxr, (decode b).1 = .accepted e.ios mxr := by
  unfold load at h
  split at h
  next => exact absurd h (by simp)
  next => exact absurd h (by simp)
  next hd =>
    split at h
    · exact absurd h (by simp)
    · rw [hd, ← Option.some.inj h]
      exact ⟨_, rfl⟩

theorem load_packBlob (hios : ∀ io ∈ ios, io.Encodable) (hlen : ios.length < 2 ^ 32)
    (hb : b.bytes = packBlob ios mxr) (hhost : host.Keeps mxr) (hload : M.load mxr = .ok prog) :
    (load M host b files).engine = some ⟨prog, ios⟩ ∧ (load M host b files).files = files := by
  rw [load_accepted host b files (decode_packBlob hios hlen hb), programFromBytes_eq hhost hload]
  exact ⟨rfl, rfl⟩

/-- An engine loaded from a packed blob has the packed IO tensors. -/
theorem ios_of_load_packBlob (hios : ∀ io ∈ ios, io.Encodable) (hlen : ios.length < 2 ^ 32)
    (hb : b.bytes = packBlob ios mxr) {e : EngineImpl M}
    (he : (load M host b files).engine = some e) : e.ios = ios := by
  obtain ⟨mxr', hacc⟩ := accepted_of_load he
  rw [decode_packBlob hios hlen hb] at hacc
  exact (Decoded.accepted.inj hacc).1.symm

end TrtShim.Backend
