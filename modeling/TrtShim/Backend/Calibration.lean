import TrtShim.Backend.SplitIo
import TrtShim.Runs.Drain

/-! # Calibration batches

Before it quantizes a model, `build` draws batches from a calibration source. The
parameters of a batch point into its host data, so the batches are kept until the
quantization has read them.
-/

namespace TrtShim.Backend

open Std

/-- `CalibrationData`. -/
abbrev CalibrationData := TreeMap Bytes Bytes

/-- An implementation of `CalibrationSource`. `next` gives a batch, has none left, or throws. -/
structure CalibrationSource where
  State : Type
  next : List IOTensor → State → Except String (Option CalibrationData) × State

/-- A pointer to the host data of an input. The batches are numbered in the order in which they are
allocated. -/
structure BatchPtr where
  batch : ℕ
  name : Bytes

/-- Parameters whose arguments point to host data. -/
abbrev CalibrationParameters := List (Bytes × Shape × BatchPtr)

/-- The vectors that the calibration loop fills. -/
structure Kept where
  kept : List CalibrationData := []
  keptPp : List CalibrationParameters := []

/-- The shape of the argument for an input. -/
def inputShape (M : Migraphx) (io : IOTensor) : Shape :=
  M.shape io.datatype (io.dims.map Int64.toUInt64)

/-- The inner loop: the parameters of a batch. -/
def batchParameters (M : Migraphx) (inputs : List IOTensor) (batch : ℕ) (cd : CalibrationData) :
    CalibrationParameters :=
  inputs.filterMap fun io =>
    if io.name ∈ cd then some (io.name, inputShape M io, ⟨batch, io.name⟩) else none

/-- The body of the calibration loop. -/
def keep (M : Migraphx) (inputs : List IOTensor) (k : Kept) (cd : CalibrationData) : Kept where
  kept := k.kept ++ [cd]
  keptPp := k.keptPp ++ [batchParameters M inputs k.kept.length cd]

/-- The calibration loop of `build`. No value stands for a loop that has not ended after this
number of passes. -/
def calibrate (M : Migraphx) (src : CalibrationSource) (inputs : List IOTensor) (passes : ℕ)
    (s : src.State) : Option (Except String Kept × src.State) :=
  Drain.drain (src.next inputs) (keep M inputs) passes s {}

namespace Kept

variable (k : Kept)

/-- The bytes behind a pointer while the batches are alive. -/
def deref (p : BatchPtr) : Option Bytes := (k.kept[p.batch]?).bind fun cd => cd[p.name]?

/-- What `quantize_int8` reads through the parameters. No value stands for a dangling pointer. -/
def arguments : Option (List ProgramParameters) :=
  k.keptPp.mapM fun pp => pp.mapM fun p =>
    (k.deref p.2.2).map fun bytes => (p.1, ⟨p.2.1, .host bytes⟩)

end Kept

/-- The arguments that a batch stands for. -/
def batchArguments (M : Migraphx) (inputs : List IOTensor) (cd : CalibrationData) :
    ProgramParameters :=
  inputs.filterMap fun io =>
    (cd[io.name]?).map fun bytes => (io.name, ⟨inputShape M io, .host bytes⟩)

section Kept

variable {M : Migraphx} {inputs : List IOTensor}

theorem foldl_keep (batches : List CalibrationData) : batches.foldl (keep M inputs) {} =
    { kept := batches
      keptPp := batches.zipIdx.map fun p => batchParameters M inputs p.2 p.1 } := by
  induction batches using List.reverseRecOn with
  | nil => rfl
  | append_singleton batches cd ih =>
    rw [List.foldl_concat, ih, keep, List.zipIdx_append, List.map_append]
    simp

/-- Through the parameters of a batch that is kept, its host data is read. -/
theorem arguments_of_kept {k : Kept} {batch : ℕ} {cd : CalibrationData}
    (h : k.kept[batch]? = some cd) :
    ((batchParameters M inputs batch cd).mapM fun p =>
      (k.deref p.2.2).map fun bytes => (p.1, (⟨p.2.1, .host bytes⟩ : Argument))) =
      some (batchArguments M inputs cd) := by
  have hderef (name : Bytes) : k.deref ⟨batch, name⟩ = cd[name]? := by
    rw [Kept.deref, h, Option.bind_some]
  induction inputs with
  | nil => rfl
  | cons io inputs ih =>
    rw [batchParameters, List.filterMap_cons, batchArguments, List.filterMap_cons]
    rcases hdata : cd[io.name]? with _ | bytes
    · have hmem : io.name ∉ cd := by
        rw [OrderedMap.mem_iff_exists, hdata]
        simp
      rw [if_neg hmem]
      exact ih
    · have hmem : io.name ∈ cd := OrderedMap.mem_iff_exists.mpr ⟨bytes, hdata⟩
      rw [if_pos hmem, List.mapM_cons]
      simp only [hderef, hdata, Option.map_some]
      rw [Option.bind_eq_bind, Option.bind_some, Option.bind_eq_bind]
      exact congrArg (Option.bind · fun rest => some (_ :: rest)) ih

/-- No pointer dangles, and every batch reaches the quantization in its turn. -/
theorem arguments_foldl_keep (batches : List CalibrationData) :
    (batches.foldl (keep M inputs) {}).arguments =
      some (batches.map (batchArguments M inputs)) := by
  rw [foldl_keep, Kept.arguments, Lists.mapM_eq_some_iff]
  ext i : 1
  simp only [List.getElem?_map, List.getElem?_zipIdx, Nat.zero_add]
  rcases hcd : batches[i]? with _ | cd
  · rfl
  · exact congrArg some (arguments_of_kept hcd)

end Kept

end TrtShim.Backend
