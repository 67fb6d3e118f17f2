import Mathlib.Algebra.Ring.Nat

/-! # Byte strings and little-endian words

A word of `k` bytes is stored least significant byte first. Storing keeps the
value modulo `256 ^ k`, and every string of `k` bytes stores exactly one value.
-/

namespace TrtShim

/-- The contents of a `std::string` or of a range of memory. -/
abbrev Bytes := List UInt8

namespace Words

/-- The low `k` bytes of a number, least significant first. -/
def le : ℕ → ℕ → Bytes
  | 0, _ => []
  | k + 1, v => UInt8.ofNat v :: le k (v / 256)

/-- The number that a little-endian byte string stores. -/
def ofLe : Bytes → ℕ
  | [] => 0
  | b :: bs => b.toNat + 256 * ofLe bs

@[simp] theorem length_le (k v : ℕ) : (le k v).length = k := by
  induction k generalizing v with
  | zero => rfl
  | succ k ih => simp [le, ih]

theorem ofLe_le (k v : ℕ) : ofLe (le k v) = v % 256 ^ k := by
  induction k generalizing v with
  | zero => simp [le, ofLe, Nat.mod_one]
  | succ k ih =>
    calc ofLe (le (k + 1) v) = v % 256 + 256 * (v / 256 % 256 ^ k) := by
          simp [le, ofLe, ih]
      _ = v % (256 * 256 ^ k) := Nat.mod_mul.symm
      _ = v % 256 ^ (k + 1) := by rw [Nat.pow_succ']

theorem ofLe_le_of_lt {k v : ℕ} (h : v < 256 ^ k) : ofLe (le k v) = v := by
  rw [ofLe_le, Nat.mod_eq_of_lt h]

theorem ofLe_lt (bs : Bytes) : ofLe bs < 256 ^ bs.length := by
  induction bs with
  | nil => simp [ofLe]
  | cons b bs ih =>
    have hb := b.toNat_lt
    simp only [ofLe, List.length_cons, Nat.pow_succ']
    omega

theorem le_ofLe (bs : Bytes) : le bs.length (ofLe bs) = bs := by
  induction bs with
  | nil => rfl
  | cons b bs ih =>
    have hb := b.toNat_lt
    have hd : (b.toNat + 256 * ofLe bs) / 256 = ofLe bs := by omega
    have hm : UInt8.ofNat (b.toNat + 256 * ofLe bs) = b := by
      apply UInt8.toNat_inj.mp
      rw [UInt8.toNat_ofNat']
      omega
    simp only [List.length_cons, le, ofLe, hd, hm, ih]

end Words

end TrtShim
