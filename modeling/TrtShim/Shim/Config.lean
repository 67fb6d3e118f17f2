import Mathlib.Logic.Function.Basic
import TrtShim.Backend.Basic
import TrtShim.Bytes.Flags
import TrtShim.Containers.Lists

/-! # Builder configurations

A configuration keeps its flags in one word, the calibrator that was set last,
and the profiles in the order in which they were added. What a build reads of it
depends on the last writes to three flags and on the first profile.
-/

namespace TrtShim.Shim

open Backend

/-- `BuilderFlag`. `kWEIGHTLESS` is another name of `kSTRIP_PLAN`. -/
inductive BuilderFlag where
  | kFP16
  | kINT8
  | kDEBUG
  | kGPU_FALLBACK
  | kREFIT
  | kDISABLE_TIMING_CACHE
  | kTF32
  | kSPARSE_WEIGHTS
  | kSAFETY_SCOPE
  | kOBEY_PRECISION_CONSTRAINTS
  | kPREFER_PRECISION_CONSTRAINTS
  | kDIRECT_IO
  | kREJECT_EMPTY_ALGORITHMS
  | kVERSION_COMPATIBLE
  | kEXCLUDE_LEAN_RUNTIME
  | kFP8
  | kERROR_ON_TIMING_CACHE_MISS
  | kBF16
  | kDISABLE_COMPILATION_CACHE
  | kSTRIP_PLAN
  | kREFIT_IDENTICAL
  | kWEIGHT_STREAMING
  | kINT4
  | kREFIT_INDIVIDUAL
  | kSTRICT_NANS
  | kMONITOR_MEMORY
  deriving DecidableEq

/-- The value of an enumerator. -/
def BuilderFlag.val : BuilderFlag → UInt32
  | kFP16 => 0
  | kINT8 => 1
  | kDEBUG => 2
  | kGPU_FALLBACK => 3
  | kREFIT => 4
  | kDISABLE_TIMING_CACHE => 5
  | kTF32 => 6
  | kSPARSE_WEIGHTS => 7
  | kSAFETY_SCOPE => 8
  | kOBEY_PRECISION_CONSTRAINTS => 9
  | kPREFER_PRECISION_CONSTRAINTS => 10
  | kDIRECT_IO => 11
  | kREJECT_EMPTY_ALGORITHMS => 12
  | kVERSION_COMPATIBLE => 13
  | kEXCLUDE_LEAN_RUNTIME => 14
  | kFP8 => 15
  | kERROR_ON_TIMING_CACHE_MISS => 16
  | kBF16 => 17
  | kDISABLE_COMPILATION_CACHE => 18
  | kSTRIP_PLAN => 19
  | kREFIT_IDENTICAL => 20
  | kWEIGHT_STREAMING => 21
  | kINT4 => 22
  | kREFIT_INDIVIDUAL => 23
  | kSTRICT_NANS => 24
  | kMONITOR_MEMORY => 25

theorem BuilderFlag.val_lt (f : BuilderFlag) : f.val < 32 := by
  cases f <;> decide

theorem BuilderFlag.val_injective : Function.Injective BuilderFlag.val := by
  have hnat (f : BuilderFlag) : f.val.toNat = f.ctorIdx := by cases f <;> rfl
  intro f g h
  rw [← BuilderFlag.ofNat_ctorIdx f, ← hnat, h, hnat, BuilderFlag.ofNat_ctorIdx]

/-- `ShimConfig`. The calibrator and the profiles are pointers to objects of the caller. -/
structure ShimConfig where
  flags : UInt32 := 0
  calibrator : Ptr := 0
  profiles : List Ptr := []

/-- A call that writes to a configuration. -/
inductive ConfigCall where
  | setFlag (f : BuilderFlag)
  | clearFlag (f : BuilderFlag)
  | setInt8Calibrator (c : Ptr)
  | addOptimizationProfile (p : Ptr)

namespace ShimConfig

variable (cfg : ShimConfig)

/-- `setFlag`. -/
def setFlag (f : BuilderFlag) : ShimConfig := { cfg with flags := Flags.set cfg.flags f.val }

/-- `clearFlag`. -/
def clearFlag (f : BuilderFlag) : ShimConfig := { cfg with flags := Flags.clear cfg.flags f.val }

/-- `getFlag`. -/
def getFlag (f : BuilderFlag) : Bool := Flags.get cfg.flags f.val

/-- `options`. -/
def options : BuildOptions where
  fp16 := cfg.getFlag .kFP16
  int8 := cfg.getFlag .kINT8
  bf16 := cfg.getFlag .kBF16

/-- `setInt8Calibrator`. -/
def setInt8Calibrator (c : Ptr) : ShimConfig := { cfg with calibrator := c }

/-- `addOptimizationProfile`, with the index that it returns. -/
def addOptimizationProfile (p : Ptr) : Int32 × ShimConfig :=
  (Int32.ofNat (cfg.profiles.length + 1) - 1, { cfg with profiles := cfg.profiles ++ [p] })

/-- `getNbOptimizationProfiles`. -/
def getNbOptimizationProfiles : Int32 := Int32.ofNat cfg.profiles.length

/-- `profile`. -/
def profile : Ptr := cfg.profiles.head?.getD 0

/-- The configuration after a call. -/
def call : ConfigCall → ShimConfig
  | .setFlag f => cfg.setFlag f
  | .clearFlag f => cfg.clearFlag f
  | .setInt8Calibrator c => cfg.setInt8Calibrator c
  | .addOptimizationProfile p => (cfg.addOptimizationProfile p).2

/-- The configuration after a history of calls. -/
def after (calls : List ConfigCall) : ShimConfig := calls.foldl call cfg

end ShimConfig

/-! ## What a history stands for -/

/-- The writes of a history to the flags. -/
def flagWrites (calls : List ConfigCall) : List (BuilderFlag × Bool) :=
  calls.filterMap fun
    | .setFlag f => some (f, true)
    | .clearFlag f => some (f, false)
    | _ => none

/-- The profiles that a history adds. -/
def profilesAdded (calls : List ConfigCall) : List Ptr :=
  calls.filterMap fun
    | .addOptimizationProfile p => some p
    | _ => none

/-- The calibrators that a history sets. -/
def calibratorsSet (calls : List ConfigCall) : List Ptr :=
  calls.filterMap fun
    | .setInt8Calibrator c => some c
    | _ => none

namespace ShimConfig

variable {cfg : ShimConfig} {calls : List ConfigCall}

theorem after_concat (call : ConfigCall) :
    cfg.after (calls ++ [call]) = (cfg.after calls).call call := List.foldl_concat ..

theorem getFlag_setFlag (f g : BuilderFlag) :
    (cfg.setFlag f).getFlag g = if f = g then true else cfg.getFlag g := by
  simp only [getFlag, setFlag, Flags.get_set f.val_lt g.val_lt, BuilderFlag.val_injective.eq_iff]

theorem getFlag_clearFlag (f g : BuilderFlag) :
    (cfg.clearFlag f).getFlag g = if f = g then false else cfg.getFlag g := by
  simp only [getFlag, clearFlag, Flags.get_clear f.val_lt g.val_lt,
    BuilderFlag.val_injective.eq_iff]

theorem flagWrites_concat (call : ConfigCall) :
    flagWrites (calls ++ [call]) = flagWrites calls ++ flagWrites [call] := List.filterMap_append

/-- A flag is what was last written to it. -/
theorem getFlag_after (f : BuilderFlag) :
    (cfg.after calls).getFlag f = (Lists.lastValue (flagWrites calls) f).getD (cfg.getFlag f) := by
  induction calls using List.reverseRecOn with
  | nil => rfl
  | append_singleton calls call ih =>
    rw [after_concat, flagWrites_concat]
    cases call with
    | setFlag g =>
      change ((cfg.after calls).setFlag g).getFlag f = (Lists.lastValue (_ ++ [(g, true)]) f).getD _
      rw [getFlag_setFlag, ih, Lists.lastValue_concat]
      split <;> rfl
    | clearFlag g =>
      change ((cfg.after calls).clearFlag g).getFlag f =
        (Lists.lastValue (_ ++ [(g, false)]) f).getD _
      rw [getFlag_clearFlag, ih, Lists.lastValue_concat]
      split <;> rfl
    | setInt8Calibrator c =>
      change (cfg.after calls).getFlag f = (Lists.lastValue (_ ++ []) f).getD _
      rw [List.append_nil, ih]
    | addOptimizationProfile p =>
      change (cfg.after calls).getFlag f = (Lists.lastValue (_ ++ []) f).getD _
      rw [List.append_nil, ih]

theorem profiles_after : (cfg.after calls).profiles = cfg.profiles ++ profilesAdded calls := by
  induction calls generalizing cfg with
  | nil => exact (List.append_nil _).symm
  | cons call calls ih =>
    rw [after, List.foldl_cons, ← after, ih]
    cases call with
    | addOptimizationProfile p => exact List.append_assoc _ _ _
    | setFlag f => rfl
    | clearFlag f => rfl
    | setInt8Calibrator c => rfl

theorem calibrator_after :
    (cfg.after calls).calibrator = (calibratorsSet calls).getLast?.getD cfg.calibrator := by
  induction calls generalizing cfg with
  | nil => rfl
  | cons call calls ih =>
    rw [after, List.foldl_cons, ← after, ih]
    cases call with
    | setInt8Calibrator c =>
      change _ = (c :: calibratorsSet calls).getLast?.getD _
      rw [List.getLast?_cons]
      rfl
    | setFlag f => rfl
    | clearFlag f => rfl
    | addOptimizationProfile p => rfl

end ShimConfig

end TrtShim.Shim
