import Mathlib.Algebra.Ring.Int.Defs
import Mathlib.Data.List.TakeWhile
import TrtShim.Bytes.Words

/-! # Decimal numerals

`std::to_string` and `std::stoi` over byte strings. The numeral of every `int`
that is not negative reads back as itself, and distinct numbers have distinct
numerals.
-/

namespace TrtShim.Decimal

/-- The decimal digits of a natural number, most significant first. -/
def digits (n : ℕ) : Bytes := (Nat.toDigits 10 n).map fun c => UInt8.ofNat c.toNat

/-- `std::to_string` of an `int`. -/
def toString : ℤ → Bytes
  | .ofNat n => digits n
  | .negSucc n => 45 :: digits (n + 1)

def isSpace (b : UInt8) : Bool := b = 32 || (9 ≤ b && b ≤ 13)

def isDigit (b : UInt8) : Bool := 48 ≤ b && b ≤ 57

/-- The number that a string of digits denotes. -/
def value (ds : Bytes) : ℕ := ds.foldl (fun v b => 10 * v + (b.toNat - 48)) 0

/-- Split an optional sign from the front of a numeral. -/
def sign : Bytes → Bool × Bytes
  | 45 :: s => (true, s)
  | 43 :: s => (false, s)
  | s => (false, s)

/-- `std::stoi`: leading blanks, an optional sign and digits, with anything after them left
unread. No value stands for an exception. -/
def stoi (s : Bytes) : Option ℤ :=
  let (neg, s) := sign (s.dropWhile isSpace)
  let ds := s.takeWhile isDigit
  let v : ℤ := if neg then -value ds else value ds
  if ds = [] then none
  else if -2 ^ 31 ≤ v ∧ v < 2 ^ 31 then some v
  else none

theorem toNat_of_mem_toDigits {n : ℕ} {c : Char} (h : c ∈ Nat.toDigits 10 n) :
    48 ≤ c.toNat ∧ c.toNat ≤ 57 := by
  have hd := Nat.isDigit_of_mem_toDigits (by decide) (by decide) h
  simpa [Char.isDigit, Char.le_def, UInt32.le_iff_toNat_le] using hd

theorem isDigit_of_mem_digits {n : ℕ} {b : UInt8} (h : b ∈ digits n) : isDigit b = true := by
  obtain ⟨c, hc, rfl⟩ := List.mem_map.mp h
  obtain ⟨hl, hu⟩ := toNat_of_mem_toDigits hc
  simp only [isDigit, Bool.and_eq_true, decide_eq_true_eq, UInt8.le_iff_toNat_le,
    UInt8.toNat_ofNat', UInt8.reduceToNat]
  omega

theorem digits_ne_nil (n : ℕ) : digits n ≠ [] := by
  simp [digits, Nat.toDigits_ne_nil]

theorem value_digits (n : ℕ) : value (digits n) = n := by
  have hc : ∀ (cs : List Char) (v : ℕ), (∀ c ∈ cs, c.toNat ≤ 57) →
      (cs.map fun c => UInt8.ofNat c.toNat).foldl (fun v b => 10 * v + (b.toNat - 48)) v =
        Nat.ofDigitChars 10 cs v := by
    intro cs
    induction cs with
    | nil => intro v _; rfl
    | cons c cs ih =>
      intro v h
      have hlt := h c List.mem_cons_self
      rw [List.map_cons, List.foldl_cons, Nat.ofDigitChars_cons,
        ih _ fun c' hc' => h c' (List.mem_cons_of_mem _ hc'), UInt8.toNat_ofNat',
        Nat.mod_eq_of_lt (by omega)]
      rfl
  rw [value, digits, hc _ _ fun c hm => (toNat_of_mem_toDigits hm).2,
    Nat.ofDigitChars_ten_toDigits]

theorem digits_injective : Function.Injective digits := fun m n h => by
  rw [← value_digits m, h, value_digits]

theorem sign_digits (n : ℕ) : sign (digits n) = (false, digits n) := by
  have h := fun b => isDigit_of_mem_digits (n := n) (b := b)
  cases hd : digits n with
  | nil => rfl
  | cons b s =>
    have hb := h b (by simp [hd])
    have h45 : b ≠ 45 := by rintro rfl; exact absurd hb (by decide)
    have h43 : b ≠ 43 := by rintro rfl; exact absurd hb (by decide)
    simp [sign, h45, h43]

theorem dropWhile_isSpace_digits (n : ℕ) : (digits n).dropWhile isSpace = digits n := by
  have h := fun b => isDigit_of_mem_digits (n := n) (b := b)
  cases hd : digits n with
  | nil => rfl
  | cons b s =>
    have hb := h b (by simp [hd])
    have hs : isSpace b = false := by
      simp only [isDigit, Bool.and_eq_true, decide_eq_true_eq, UInt8.le_iff_toNat_le,
        UInt8.reduceToNat] at hb
      simp only [isSpace, Bool.or_eq_false_iff, decide_eq_false_iff_not, Bool.and_eq_false_iff,
        UInt8.le_iff_toNat_le, UInt8.reduceToNat, ← UInt8.toNat_inj]
      omega
    simp [List.dropWhile, hs]

/-- The numeral of an `int` that is not negative reads back as itself. -/
theorem stoi_digits {n : ℕ} (h : n < 2 ^ 31) : stoi (digits n) = some (n : ℤ) := by
  have htake : (digits n).takeWhile isDigit = digits n :=
    List.takeWhile_eq_self_iff.mpr fun b hb => isDigit_of_mem_digits hb
  have hrange : (-2 ^ 31 : ℤ) ≤ n ∧ (n : ℤ) < 2 ^ 31 := by omega
  simp only [stoi, dropWhile_isSpace_digits, sign_digits, htake, value_digits, digits_ne_nil,
    if_false, Bool.false_eq_true, hrange, and_self, if_true]

end TrtShim.Decimal
