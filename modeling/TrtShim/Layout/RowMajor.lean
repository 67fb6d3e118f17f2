import Mathlib.Data.Int.Order.Basic
import Mathlib.Data.List.Lex
import Mathlib.Data.Set.Function

/-! # The dense row-major layout

The index tuples of a shape are the digits of mixed-radix numbers, and the strides
are the weights of these digits. Every number below the volume is the address of
one tuple, and the addresses increase with the tuples in lexicographic order.
-/

namespace TrtShim.RowMajor

/-- The number of elements of a shape. -/
def volume : List ℕ → ℕ
  | [] => 1
  | d :: ds => d * volume ds

/-- The strides of a shape; the last index varies fastest. -/
def strides : List ℕ → List ℤ
  | [] => []
  | _ :: ds => volume ds :: strides ds

/-- The sum of the indices, each times its stride. -/
def address : List ℤ → List ℕ → ℤ
  | s :: ss, i :: is => i * s + address ss is
  | _, _ => 0

/-- The index tuples of a shape. -/
def Indices (ds : List ℕ) : Set (List ℕ) := {is | List.Forall₂ (· < ·) is ds}

variable {ds is : List ℕ}

theorem length_strides (ds : List ℕ) : (strides ds).length = ds.length := by
  induction ds with
  | nil => rfl
  | cons d ds ih => rw [strides, List.length_cons, List.length_cons, ih]

/-- A suffix of a shape has no more elements than the shape. -/
theorem volume_drop_le (h : ∀ d ∈ ds, 0 < d) (k : ℕ) : volume (ds.drop k) ≤ volume ds := by
  induction ds generalizing k with
  | nil => rw [List.drop_nil]
  | cons d ds ih =>
    rw [List.forall_mem_cons] at h
    cases k with
    | zero => exact Nat.le_refl _
    | succ k => exact Nat.le_trans (ih h.2 k) (Nat.le_mul_of_pos_left _ h.1)

/-- The stride at an index is the volume of what comes after it. -/
theorem getElem?_strides {k : ℕ} (hk : k < ds.length) :
    (strides ds)[k]? = some (volume (ds.drop (k + 1)) : ℤ) := by
  induction ds generalizing k with
  | nil => exact absurd hk (Nat.not_lt_zero k)
  | cons d ds ih =>
    cases k with
    | zero => rfl
    | succ k => exact ih (Nat.lt_of_succ_lt_succ hk)

/-- What is below one multiple stays below the next one. -/
theorem add_lt_mul {a v : ℤ} {i j : ℕ} (hij : i < j) (ha : a < v) (hv : 0 ≤ v) :
    i * v + a < j * v := by
  have hle : ((i : ℤ) + 1) * v ≤ j * v := Int.mul_le_mul_of_nonneg_right (by omega) hv
  rw [Int.add_mul, Int.one_mul] at hle
  omega

theorem address_nonneg (ds is : List ℕ) : 0 ≤ address (strides ds) is := by
  induction ds generalizing is with
  | nil => exact Int.le_refl 0
  | cons d ds ih =>
    cases is with
    | nil => exact Int.le_refl 0
    | cons i is =>
      exact Int.add_nonneg (Int.mul_nonneg (Int.natCast_nonneg _) (Int.natCast_nonneg _)) (ih is)

theorem address_lt (h : is ∈ Indices ds) : address (strides ds) is < volume ds := by
  induction ds generalizing is with
  | nil =>
    cases h
    exact Int.zero_lt_one
  | cons d ds ih =>
    obtain - | ⟨hi, htail⟩ := h
    rw [volume, Int.natCast_mul]
    exact add_lt_mul hi (ih htail) (Int.natCast_nonneg _)

/-- Addresses increase with the index tuples. -/
theorem address_lt_address {js : List ℕ} (hi : is ∈ Indices ds) (hj : js ∈ Indices ds)
    (h : List.Lex (· < ·) is js) : address (strides ds) is < address (strides ds) js := by
  induction ds generalizing is js with
  | nil =>
    cases hi
    cases hj
    exact absurd h List.not_lex_nil
  | cons d ds ih =>
    obtain - | ⟨hhead, htail⟩ := hi
    obtain - | ⟨hhead', htail'⟩ := hj
    rcases List.cons_lex_cons_iff.mp h with hlt | ⟨rfl, hrest⟩
    · have hstep := add_lt_mul hlt (address_lt htail) (Int.natCast_nonneg _)
      exact Int.lt_of_lt_of_le hstep (Int.le_add_of_nonneg_right (address_nonneg ds _))
    · exact Int.add_lt_add_left (ih htail htail' hrest) _

theorem injOn_address (ds : List ℕ) : Set.InjOn (address (strides ds)) (Indices ds) := by
  intro is hi js hj heq
  rcases trichotomous_of (List.Lex (· < ·)) is js with hlt | rfl | hlt
  · exact absurd heq (Int.ne_of_lt (address_lt_address hi hj hlt))
  · rfl
  · exact absurd heq.symm (Int.ne_of_lt (address_lt_address hj hi hlt))

/-- Every number below the volume is an address. -/
theorem exists_address {n : ℕ} (h : n < volume ds) :
    ∃ is ∈ Indices ds, address (strides ds) is = n := by
  induction ds generalizing n with
  | nil =>
    obtain rfl : n = 0 := Nat.lt_one_iff.mp h
    exact ⟨[], .nil, rfl⟩
  | cons d ds ih =>
    have hpos : 0 < volume ds := Nat.pos_of_mul_pos_left (Nat.zero_lt_of_lt h)
    obtain ⟨is, his, haddr⟩ := ih (Nat.mod_lt n hpos)
    refine ⟨n / volume ds :: is, .cons ((Nat.div_lt_iff_lt_mul hpos).mpr h) his, ?_⟩
    rw [strides, address, haddr, ← Int.natCast_mul, ← Int.natCast_add, Nat.div_add_mod']

/-- The address maps the index tuples onto the numbers below the volume, one to one. -/
theorem bijOn_address (ds : List ℕ) :
    Set.BijOn (address (strides ds)) (Indices ds) {a | 0 ≤ a ∧ a < volume ds} := by
  refine ⟨fun is h => ⟨address_nonneg ds is, address_lt h⟩, injOn_address ds, ?_⟩
  rintro n ⟨hn, hlt⟩
  obtain ⟨n, rfl⟩ := Int.eq_ofNat_of_zero_le hn
  exact exists_address (Int.ofNat_lt.mp hlt)

end TrtShim.RowMajor
