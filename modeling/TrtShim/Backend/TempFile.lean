import TrtShim.Backend.Basic

/-! # Programs as bytes

MIGraphX saves and loads programs through files only, so the backend passes the
bytes of a program through a temporary file. A call that throws on the way
leaves its file behind.
-/

namespace TrtShim.Backend

/-- The paths of the temporary files that exist, newest first. -/
abbrev TempFiles := List Bytes

/-- What the system and the file streams do with a temporary file. A call that throws returns the
text of the exception. -/
structure Host where
  /-- The path of a new file; no value stands for a failure. -/
  mkstemp : TempFiles → Option Bytes
  fresh : ∀ files path, mkstemp files = some path → path ∉ files
  /-- The contents of a file after a stream opened on it has written these bytes and closed. -/
  write : Bytes → Bytes
  /-- `tellg()` of a stream opened at the end of a file with these contents. -/
  tellg : Bytes → Int64
  /-- The bytes that the stream can read from a file with these contents. -/
  read : Bytes → Bytes
  /-- The allocation of a string of this size. -/
  allocate : UInt64 → Except String Unit

/-- A string of `n` zero bytes after bytes have been read into it. -/
def readInto (n : ℕ) (bytes : Bytes) : Bytes :=
  bytes.take n ++ List.replicate (n - bytes.length) 0

/-- `program_to_bytes`. -/
def programToBytes (M : Migraphx) (host : Host) (prog : M.Program) (files : TempFiles) :
    Except String Bytes × TempFiles :=
  match host.mkstemp files with
  | none => (.error "trtshim: mkstemp failed", files)
  | some path =>
    match M.save prog with
    | .error what => (.error what, path :: files)
    | .ok content =>
      let sz := (host.tellg content).toUInt64
      match host.allocate sz with
      | .error what => (.error what, path :: files)
      | .ok () => (.ok (readInto sz.toNat (host.read content)), (path :: files).erase path)

/-- `program_from_bytes`. -/
def programFromBytes (M : Migraphx) (host : Host) (bytes : Bytes) (files : TempFiles) :
    Except String M.Program × TempFiles :=
  match host.mkstemp files with
  | none => (.error "trtshim: mkstemp failed", files)
  | some path =>
    match M.load (host.write bytes) with
    | .error what => (.error what, path :: files)
    | .ok prog => (.ok prog, (path :: files).erase path)

/-- A file with these contents can be created, written and read back unchanged. -/
structure Host.Keeps (host : Host) (content : Bytes) : Prop where
  mkstemp : ∀ files, ∃ path, host.mkstemp files = some path
  write : host.write content = content
  tellg : (host.tellg content).toUInt64.toNat = content.length
  read : host.read content = content
  allocate : host.allocate (host.tellg content).toUInt64 = .ok ()

@[simp] theorem readInto_length (bytes : Bytes) : readInto bytes.length bytes = bytes := by
  simp [readInto]

variable {M : Migraphx} {host : Host} {content : Bytes} {prog : M.Program}

theorem programToBytes_eq (h : host.Keeps content) (hsave : M.save prog = .ok content)
    (files : TempFiles) : programToBytes M host prog files = (.ok content, files) := by
  obtain ⟨path, hpath⟩ := h.mkstemp files
  simp [programToBytes, hpath, hsave, h.allocate, h.tellg, h.read]

theorem programFromBytes_eq (h : host.Keeps content) (hload : M.load content = .ok prog)
    (files : TempFiles) : programFromBytes M host content files = (.ok prog, files) := by
  obtain ⟨path, hpath⟩ := h.mkstemp files
  simp [programFromBytes, hpath, h.write, hload]

/-- A system on which every call succeeds. -/
def Host.plain : Host where
  mkstemp files := some (text "/tmp/trtshim_" ++ files.flatten)
  fresh files path hpath hmem := by
    have hle := (List.sublist_flatten_of_mem hmem).length_le
    have htext : (text "/tmp/trtshim_").length = 13 := by decide
    rw [← Option.some.inj hpath, List.length_append, htext] at hle
    omega
  write bytes := bytes
  tellg content := Int64.ofNat content.length
  read content := content
  allocate _ := .ok ()

theorem Host.plain_keeps (h : content.length < 2 ^ 63) : Host.plain.Keeps content where
  mkstemp files := ⟨_, rfl⟩
  write := rfl
  tellg := by
    change (UInt64.ofNat content.length).toNat = content.length
    rw [UInt64.toNat_ofNat', Nat.mod_eq_of_lt (by omega)]
  read := rfl
  allocate := rfl

end TrtShim.Backend
