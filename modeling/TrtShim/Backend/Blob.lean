import TrtShim.Backend.Basic
import TrtShim.Bytes.Reader

/-! # The serialized engine format

An engine blob is the magic header, the number of IO tensors, the tensors with
their length-prefixed names and dimensions, and the length-prefixed program.
`packBlob` writes it and `decode` is the part of `load` that reads it back.
-/

namespace TrtShim.Backend

open Reading

/-- `kMagic`. -/
def kMagic : Bytes := text "TRTSHIM" ++ [1]

def putU32 (v : UInt32) : Bytes := Words.le 4 v.toNat

def putU64 (v : UInt64) : Bytes := Words.le 8 v.toNat

/-- The bytes that `pack_blob` appends for one IO tensor. -/
def packTensor (io : IOTensor) : Bytes :=
  [io.dir.val, io.datatype.toUInt32.toUInt8] ++
  putU32 io.bytesPerElem.toUInt32 ++
  putU32 (UInt32.ofNat io.name.length) ++ io.name ++
  putU32 (UInt32.ofNat io.dims.length) ++ io.dims.flatMap fun d => putU64 d.toUInt64

/-- `pack_blob`. -/
def packBlob (ios : List IOTensor) (mxr : Bytes) : Bytes :=
  kMagic ++ putU32 (UInt32.ofNat ios.length) ++ ios.flatMap packTensor ++
    putU64 (UInt64.ofNat mxr.length) ++ mxr

/-- The slots that `load` allocates from counts stored in the blob. -/
inductive Slot where
  | tensor
  | dim
  deriving DecidableEq

/-- The readers inside `load`. -/
abbrev LoadReader := Reader Slot

def getU32 : LoadReader UInt32 := UInt32.ofNat <$> Reader.word 4

def getU64 : LoadReader UInt64 := UInt64.ofNat <$> Reader.word 8

/-- `p[off++]`. -/
def nextByte : LoadReader UInt8 := (·.headD 0) <$> Reader.take 1

/-- The body of the loop over `io.dims`. -/
def decodeDim : LoadReader Int64 := UInt64.toInt64 <$> getU64

/-- The body of the loop over `ios`. -/
def decodeTensor : LoadReader IOTensor := do
  Reader.require (← Reader.need 2)
  let dir ← nextByte
  let datatype ← nextByte
  let bpe ← getU32
  let namelen ← getU32
  Reader.require (← Reader.need namelen.toUInt64)
  let name ← Reader.take namelen.toUInt64
  let ndim ← getU32
  Reader.require (← Reader.isOk)
  Reader.require (ndim.toUInt64 ≤ (← Reader.size))
  Reader.alloc .dim ndim.toNat
  let dims ← Reader.times ndim.toNat decodeDim
  return {
    name, dims, datatype := datatype.toUInt32.toInt32,
    bytesPerElem := bpe.toUInt64, dir := ⟨dir⟩ }

/-- The decoding stage of `load` after the magic header. -/
def decodeBody : LoadReader (List IOTensor × Bytes) := do
  let nIo ← getU32
  Reader.require (← Reader.isOk)
  Reader.require (nIo.toUInt64 ≤ (← Reader.size))
  Reader.alloc .tensor nIo.toNat
  let ios ← Reader.times nIo.toNat decodeTensor
  let mxrLen ← getU64
  Reader.require (← Reader.isOk)
  Reader.require (← Reader.need mxrLen)
  let mxr ← Reader.view mxrLen
  return (ios, mxr)

/-- How the decoding stage of `load` ends. -/
inductive Decoded where
  | foreign
  | corrupt
  | accepted (ios : List IOTensor) (mxr : Bytes)
  deriving DecidableEq

/-- The cursor once the magic header has been compared. -/
def afterMagic : Cursor Slot := ⟨8, true, [⟨.read 0 8, 8, true⟩]⟩

/-- The decoding stage of `load`, with the final cursor and the trail of the run. -/
def decode (b : Buffer) : Decoded × Cursor Slot :=
  if b.size < 8 then (.foreign, ⟨0, true, []⟩)
  else if b.bytes.take 8 ≠ kMagic then (.foreign, ⟨0, true, [⟨.read 0 8, 0, true⟩]⟩)
  else match decodeBody b afterMagic with
    | (some (ios, mxr), s) => (.accepted ios mxr, s)
    | (none, s) => (.corrupt, s)

end TrtShim.Backend
