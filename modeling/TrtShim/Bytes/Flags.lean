import Mathlib.Data.Nat.Notation

/-! # Sets of flags

A word of 32 bits holds a set of flags, each at its own bit. Writing one flag
leaves all the others as they are.
-/

namespace TrtShim.Flags

/-- The word with a flag set. -/
def set (flags i : UInt32) : UInt32 := flags ||| (1 <<< i)

/-- The word with a flag cleared. -/
def clear (flags i : UInt32) : UInt32 := flags &&& ~~~(1 <<< i)

/-- Whether a flag is set. -/
def get (flags i : UInt32) : Bool := (flags >>> i) &&& 1 ≠ 0

variable {flags i j : UInt32}

theorem get_eq_getLsbD (hi : i < 32) : get flags i = flags.toBitVec.getLsbD i.toNat := by
  have hlt : i.toNat < 32 := UInt32.lt_iff_toNat_lt.mp hi
  have hbit : ((flags >>> i) &&& 1).toNat = (flags.toNat >>> i.toNat) % 2 := by
    rw [UInt32.toNat_and, UInt32.toNat_shiftRight, Nat.mod_eq_of_lt hlt]
    exact Nat.and_one_is_mod _
  have hzero : ((flags >>> i) &&& 1) = 0 ↔ (flags.toNat >>> i.toNat) % 2 = 0 := by
    rw [← UInt32.toNat_inj, hbit]
    rfl
  rw [get, BitVec.getLsbD, UInt32.toNat_toBitVec, Nat.testBit_eq_decide_div_mod_eq,
    ← Nat.shiftRight_eq_div_pow]
  simp only [ne_eq, hzero, Nat.mod_two_not_eq_zero]

theorem getLsbD_bit (hi : i < 32) :
    (1 <<< i : UInt32).toBitVec.getLsbD j.toNat = decide (i = j) := by
  have hi' : i.toNat < 32 := UInt32.lt_iff_toNat_lt.mp hi
  have hone : (1 <<< i : UInt32).toNat = 2 ^ i.toNat := by
    rw [UInt32.toNat_shiftLeft, Nat.mod_eq_of_lt hi', UInt32.toNat_one, Nat.one_shiftLeft]
    exact Nat.mod_eq_of_lt (Nat.pow_lt_pow_right (by decide) hi')
  rw [BitVec.getLsbD, UInt32.toNat_toBitVec, hone, Nat.testBit_two_pow]
  exact decide_eq_decide.mpr UInt32.toNat_inj

theorem get_set (hi : i < 32) (hj : j < 32) :
    get (set flags i) j = if i = j then true else get flags j := by
  rw [get_eq_getLsbD hj, get_eq_getLsbD hj, set, UInt32.toBitVec_or, BitVec.getLsbD_or,
    getLsbD_bit hi]
  split
  next h => simp [h]
  next h => simp [h]

theorem get_clear (hi : i < 32) (hj : j < 32) :
    get (clear flags i) j = if i = j then false else get flags j := by
  rw [get_eq_getLsbD hj, get_eq_getLsbD hj, clear, UInt32.toBitVec_and, BitVec.getLsbD_and,
    UInt32.toBitVec_not, BitVec.getLsbD_not, getLsbD_bit hi]
  have hlt : j.toNat < 32 := UInt32.lt_iff_toNat_lt.mp hj
  split
  next h => simp [h]
  next h => simp [h, hlt]

end TrtShim.Flags
