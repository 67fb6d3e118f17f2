import Mathlib.Data.List.Basic
import TrtShim.Bytes.Words

/-! # Memory

A memory gives a byte at every 64-bit address. `Holds` says that it has given
bytes from an address on, and `read` takes bytes out of it.
-/

namespace TrtShim

/-- The byte at every address. -/
abbrev Mem := UInt64 → UInt8

namespace Mem

/-- The memory has these bytes from this address on. -/
def Holds (m : Mem) : UInt64 → Bytes → Prop
  | _, [] => True
  | p, b :: bs => m p = b ∧ Holds m (p + 1) bs

instance decidableHolds (m : Mem) : (p : UInt64) → (bs : Bytes) → Decidable (m.Holds p bs)
  | _, [] => .isTrue trivial
  | p, b :: bs => @instDecidableAnd _ _ (inferInstanceAs (Decidable (m p = b)))
      (decidableHolds m (p + 1) bs)

/-- The `n` bytes from an address on. -/
def read (m : Mem) (p : UInt64) : ℕ → Bytes
  | 0 => []
  | n + 1 => m p :: read m (p + 1) n

variable {m : Mem} {p : UInt64}

theorem read_of_holds {bs : Bytes} (h : m.Holds p bs) : m.read p bs.length = bs := by
  induction bs generalizing p with
  | nil => rfl
  | cons b bs ih => rw [List.length_cons, read, h.1, ih h.2]

/-- The address `n` bytes further on. -/
theorem succ_add_ofNat (p : UInt64) (n : ℕ) :
    p + 1 + UInt64.ofNat n = p + UInt64.ofNat (n + 1) := by
  rw [UInt64.add_assoc, UInt64.add_comm 1, UInt64.ofNat_add]
  rfl

theorem holds_append {xs ys : Bytes} :
    m.Holds p (xs ++ ys) ↔ m.Holds p xs ∧ m.Holds (p + UInt64.ofNat xs.length) ys := by
  induction xs generalizing p with
  | nil => simp [Holds]
  | cons x xs ih =>
    rw [List.cons_append, Holds, Holds, ih, and_assoc, succ_add_ofNat, List.length_cons]

/-- A memory with these bytes from this address on, and zeros elsewhere. -/
def ofBytes (p : UInt64) (bs : Bytes) : Mem := fun q => bs.getD (q - p).toNat 0

theorem toNat_add_ofNat {n : ℕ} (h : p.toNat + n < 2 ^ 64) :
    (p + UInt64.ofNat n).toNat = p.toNat + n := by
  rw [UInt64.toNat_add, UInt64.toNat_ofNat', Nat.mod_eq_of_lt (by omega : n < 2 ^ 64),
    Nat.mod_eq_of_lt h]

end Mem

end TrtShim
