import TrtShim.Shim.BufferSizes
import TrtShim.Shim.Builder
import TrtShim.Shim.Streams

/-! # The inference runner

`trtshim_infer` builds an engine, copies a file to the buffer of every input, runs
the engine once, and writes the buffer of every output to a file. It checks neither
its allocations, nor its copies, nor the streams that it writes to.
-/

namespace TrtShim.Tools

open Std Backend Shim

variable {M : Migraphx}

/-- The GPU of the runner, which does not look at the results of its calls. -/
structure Gpu where
  /-- The address of an allocation, by its number and its size; after a failure it is null. -/
  malloc : ℕ → UInt64 → Ptr
  /-- Whether this many bytes can be copied to or from an address. -/
  copies : Ptr → ℕ → Bool

namespace Gpu

variable (g : Gpu) (m : Mem)

/-- The copies that a run makes. -/
def hip : Hip where
  toHost p size := if g.copies p size.toNat then some (m.read p size.toNat) else none
  toDevice p arg := g.copies p arg.shape.bytes.toNat

/-- The memory after bytes have been copied to the device. -/
def upload (p : Ptr) (bytes : Bytes) : Mem := if g.copies p bytes.length then m.write p bytes else m

/-- A host buffer of zeros after bytes have been copied to it. -/
def download (p : Ptr) (n : UInt64) : Bytes :=
  if g.copies p n.toNat then m.read p n.toNat else List.replicate n.toNat 0

end Gpu

/-- The files that the runner reads, and its allocations on the host. -/
structure Inputs where
  file : Bytes → Option OpenFile
  allocate : UInt64 → Bool

/-- The files on a disk, by their paths. -/
abbrev Files := TreeMap Bytes Bytes

/-- The disk that the runner writes to. -/
structure Disk where
  /-- The files before the runner starts. -/
  saved : Files
  /-- What the file of a path holds after an output stream has been opened on it, has been given
  these bytes, and is closed; no value stands for a file that cannot be opened. -/
  write : Bytes → Bytes → Option Bytes

/-- The files after bytes have been written to a path. -/
def Disk.store (disk : Disk) (files : Files) (path bytes : Bytes) : Files :=
  match disk.write path bytes with
  | some stored => files.insert path stored
  | none => files

/-- `read_file`; no value stands for an exception. -/
def Inputs.readFile (ins : Inputs) (p : Bytes) : Option Bytes :=
  (ins.file p).bind fun f =>
    let n := f.ftell.toUInt64
    if ins.allocate n then some (readInto n.toNat f.content) else none

/-- `sanitize`. -/
def sanitize (s : Bytes) : Bytes := s.map fun c => if c ∈ text "/: " then 95 else c

/-- An argument split at its first `=`, if it has one. -/
def splitArg (a : Bytes) : Option (Bytes × Bytes) :=
  let name := a.takeWhile fun c => c ≠ 61
  if name.length < a.length then some (name, a.drop (name.length + 1)) else none

/-- The file given for a tensor: the last one given for its name, or else the only one. -/
def fileFor (given : List (Bytes × Bytes)) (name : Bytes) : Bytes :=
  let file := given.foldl (fun file kv => if kv.1 = name then kv.2 else file) []
  if file = [] ∧ given.length = 1 then (given.head?.map Prod.snd).getD [] else file

/-- What `main` has when it goes through the IO tensors. -/
structure Bound (M : Migraphx) where
  context : ShimContext M
  mem : Mem
  dev : List Ptr := []
  outputs : List (Bytes × ℕ) := []

/-- What the runner leaves when it exits: its code, its output, and the files on the disk. -/
structure Exit where
  code : Int32
  stdout : Bytes := []
  files : Files

section Main

variable (g : Gpu) (ins : Inputs) (disk : Disk) (e : ShimEngine M)
  (given : List (Bytes × Bytes))

/-- The name at a position. -/
def nameAt (i : ℕ) : Bytes := (e.getIOTensorName (Int32.ofNat i)).getD []

/-- The size of an allocation. -/
def allocated (i : ℕ) : UInt64 :=
  let bytes := e.bufferSize (nameAt e i)
  if bytes = 0 then 1 else bytes

/-- The buffer for the IO tensor at a position. -/
def slot (i : ℕ) : Ptr := g.malloc i (allocated e i)

/-- The body of the loop over the IO tensors. -/
def bindTensor (b : Bound M) (i : ℕ) : Option (Bound M) :=
  let name := nameAt e i
  let b := { b with
    dev := b.dev ++ [slot g e i]
    context := b.context.setTensorAddress name (slot g e i) }
  if e.getTensorIOMode name = .kINPUT then
    (ins.readFile (fileFor given name)).map fun raw =>
      { b with mem := g.upload b.mem (slot g e i) (raw.take (e.bufferSize name).toNat) }
  else some { b with outputs := b.outputs ++ [(name, i)] }

/-- The line for an output. -/
def outLine (name : Bytes) : Bytes :=
  text "OUT " ++ name ++ text " " ++ Decimal.toString (e.getTensorDataType name).val.toInt ++
    text " " ++ (text ",").intercalate
      ((e.getTensorShape name).entries.map fun d => Decimal.toString d.toInt) ++ text "\n"

/-- The file for an output. -/
def outFile (outdir name : Bytes) : Bytes := outdir ++ text "/" ++ sanitize name ++ text ".bin"

/-- The loop over the outputs. -/
def report (outdir : Bytes) (mem : Mem) (dev : List Ptr) : Files → List (Bytes × ℕ) → Exit
  | files, [] => { code := 0, files }
  | files, (name, i) :: outputs =>
    let bytes := e.bufferSize name
    if ins.allocate bytes then
      let host := g.download mem (dev[i]?.getD 0) bytes
      let rest := report outdir mem dev (disk.store files (outFile outdir name) host) outputs
      { rest with stdout := outLine e name ++ rest.stdout }
    else { code := 1, files }

/-- `main` from the engine on. -/
def inferEngine (D : Device M) (outdir : Bytes) (m : Mem) : Exit :=
  if e.getNbIOTensors < 0 then { code := 1, files := disk.saved }
  else
    match (List.range e.getNbIOTensors.toNatClampNeg).foldlM (bindTensor g ins e given)
        ⟨e.createExecutionContext, m, [], []⟩ with
    | none => { code := 1, files := disk.saved }
    | some b =>
      let run := b.context.executeV2 (g.hip b.mem) fun i => b.dev[i]?.getD 0
      if run.returned then
        report g ins disk e outdir (D.effect e.engine.prog run b.mem) b.dev disk.saved b.outputs
      else { code := 1, files := disk.saved }

end Main

/-- `main`. No value stands for a program that is terminated. -/
def inferMain (env : Surroundings M) (D : Device M) (g : Gpu) (ins : Inputs) (disk : Disk)
    (argv : List Bytes) (m : Mem) (files : TempFiles) : Option Exit :=
  match argv with
  | _ :: model :: outdir :: args =>
    match ShimNetwork.parseFromFile env.introspect ins.allocate {} (ins.file model) with
    | (.terminated, _) => none
    | (.returned false, _) => some { code := 1, files := disk.saved }
    | (.returned true, net) =>
      (env.buildSerializedNetwork (fun _ => {}) net {} files).bind fun built =>
        match built with
        | (.error _, _) => some { code := 1, files := disk.saved }
        | (.ok blob, files) =>
          match (deserializeBuf M env.host blob files).1 with
          | none => some { code := 1, files := disk.saved }
          | some e => some (inferEngine g ins disk e (args.filterMap splitArg) D outdir m)
  | _ => some { code := 2, files := disk.saved }

namespace Disk

variable (disk : Disk)

/-- What the disk stores of some writes, in turn. -/
def stored (ws : List (Bytes × Bytes)) : List (Bytes × Bytes) :=
  ws.filterMap fun w => (disk.write w.1 w.2).map fun bytes => (w.1, bytes)

variable {disk} {ws : List (Bytes × Bytes)} {w : Bytes × Bytes}

theorem fill_stored_cons (files : Files) :
    OrderedMap.fill files (disk.stored (w :: ws)) =
      OrderedMap.fill (disk.store files w.1 w.2) (disk.stored ws) := by
  rw [stored, List.filterMap_cons, store]
  rcases disk.write w.1 w.2 with _ | bytes
  · rfl
  · rfl

/-- A file that is stored is there in the end, unless something else is written to its path. -/
theorem getElem?_fill_stored (files : Files) (hw : w ∈ ws) (hwrite : disk.write w.1 w.2 = some w.2)
    (hpath : ∀ w' ∈ ws, w'.1 = w.1 → w' = w) :
    (OrderedMap.fill files (disk.stored ws))[w.1]? = some w.2 := by
  have hlast : Lists.lastValue (disk.stored ws) w.1 = some w.2 := by
    refine Lists.lastValue_eq_some (List.mem_filterMap.mpr ⟨w, hw, ?_⟩) fun bytes hbytes => ?_
    · rw [hwrite, Option.map_some]
    · obtain ⟨w', hw', hstored⟩ := List.mem_filterMap.mp hbytes
      obtain ⟨bytes', hwrite', he⟩ := Option.map_eq_some_iff.mp hstored
      obtain ⟨hfst, rfl⟩ := Prod.mk.inj he
      obtain rfl := hpath w' hw' hfst
      exact Option.some.inj (hwrite'.symm.trans hwrite)
  rw [OrderedMap.getElem?_fill, hlast, Option.some_or]

end Disk

section Loop

variable {g : Gpu} {ins : Inputs} {e : ShimEngine M} {given : List (Bytes × Bytes)} {m : Mem}
  {n : ℕ} {b b' : Bound M}

/-- What the loop copies to the buffer at a position. -/
def uploadAt (g : Gpu) (ins : Inputs) (e : ShimEngine M) (given : List (Bytes × Bytes)) (i : ℕ) :
    Option (Ptr × Bytes) :=
  if e.getTensorIOMode (nameAt e i) = .kINPUT then
    (ins.readFile (fileFor given (nameAt e i))).map fun raw =>
      (slot g e i, raw.take (e.bufferSize (nameAt e i)).toNat)
  else none

/-- What the loop has done after some positions. -/
structure Looped (g : Gpu) (ins : Inputs) (e : ShimEngine M) (given : List (Bytes × Bytes))
    (m : Mem) (n : ℕ) (b : Bound M) : Prop where
  engine : b.context.engine = e.engine
  shapes : b.context.shapes = ∅
  dev : b.dev = (List.range n).map (slot g e)
  mem : b.mem = ((List.range n).filterMap (uploadAt g ins e given)).foldl
    (fun m w => g.upload m w.1 w.2) m
  outputs : b.outputs = ((List.range n).filter fun i =>
    e.getTensorIOMode (nameAt e i) ≠ .kINPUT).map fun i => (nameAt e i, i)
  read : ∀ i < n, e.getTensorIOMode (nameAt e i) = .kINPUT →
    (ins.readFile (fileFor given (nameAt e i))).isSome

theorem Looped.step (h : Looped g ins e given m n b)
    (hstep : bindTensor g ins e given b n = some b') : Looped g ins e given m (n + 1) b' := by
  unfold bindTensor at hstep
  by_cases hin : e.getTensorIOMode (nameAt e n) = .kINPUT
  · simp only [hin, if_true] at hstep
    obtain ⟨raw, hraw, rfl⟩ := Option.map_eq_some_iff.mp hstep
    have hupload : uploadAt g ins e given n =
        some (slot g e n, raw.take (e.bufferSize (nameAt e n)).toNat) := by
      rw [uploadAt, if_pos hin, hraw, Option.map_some]
    refine ⟨h.engine, h.shapes, ?_, ?_, ?_, fun i hi => ?_⟩
    · rw [List.range_succ, List.map_append, ← h.dev]
      rfl
    · rw [List.range_succ, List.filterMap_append, List.foldl_append, ← h.mem,
        List.filterMap_cons_some hupload]
      rfl
    · rw [List.range_succ, List.filter_append, List.map_append, ← h.outputs]
      simp [hin]
    · rcases Nat.lt_succ_iff_lt_or_eq.mp hi with hlt | rfl
      · exact h.read i hlt
      · rw [hraw]
        exact fun _ => rfl
  · simp only [hin, if_false] at hstep
    obtain rfl := Option.some.inj hstep
    have hupload : uploadAt g ins e given n = none := if_neg hin
    refine ⟨h.engine, h.shapes, ?_, ?_, ?_, fun i hi hmode => ?_⟩
    · rw [List.range_succ, List.map_append, ← h.dev]
      rfl
    · rw [List.range_succ, List.filterMap_append, List.foldl_append, ← h.mem,
        List.filterMap_cons_none hupload]
      rfl
    · rw [List.range_succ, List.filter_append, List.map_append, ← h.outputs]
      simp [hin]
    · rcases Nat.lt_succ_iff_lt_or_eq.mp hi with hlt | rfl
      · exact h.read i hlt hmode
      · exact absurd hmode hin

/-- The loop over the IO tensors. -/
theorem looped (h : (List.range n).foldlM (bindTensor g ins e given)
    ⟨e.createExecutionContext, m, [], []⟩ = some b) : Looped g ins e given m n b := by
  induction n generalizing b with
  | zero =>
    obtain rfl := Option.some.inj h
    exact ⟨rfl, rfl, rfl, rfl, rfl, fun i hi => absurd hi (Nat.not_lt_zero i)⟩
  | succ n ih =>
    rw [List.range_succ, List.foldlM_append] at h
    obtain ⟨b₀, hb₀, hlast⟩ := Option.bind_eq_some_iff.mp h
    obtain ⟨b₁, hb₁, hnil⟩ := Option.bind_eq_some_iff.mp hlast
    obtain rfl := Option.some.inj hnil
    exact (ih hb₀).step hb₁

/-- A report that succeeds has written a line for every output, and to a file what was copied from
its buffer. -/
theorem report_of_code {disk : Disk} {outdir : Bytes} {mem : Mem} {dev : List Ptr} {files : Files}
    {outputs : List (Bytes × ℕ)}
    (h : (report g ins disk e outdir mem dev files outputs).code = 0) :
    report g ins disk e outdir mem dev files outputs = ⟨0, outputs.flatMap fun o => outLine e o.1,
      OrderedMap.fill files (disk.stored (outputs.map fun o => (outFile outdir o.1,
        g.download mem (dev[o.2]?.getD 0) (e.bufferSize o.1))))⟩ := by
  induction outputs generalizing files with
  | nil => rfl
  | cons o outputs ih =>
    obtain ⟨name, i⟩ := o
    rw [report] at h ⊢
    by_cases ha : ins.allocate (e.bufferSize name) = true
    · simp only [ha, if_true] at h ⊢
      rw [ih h, List.map_cons, Disk.fill_stored_cons]
      rfl
    · simp [ha] at h

end Loop

end TrtShim.Tools
