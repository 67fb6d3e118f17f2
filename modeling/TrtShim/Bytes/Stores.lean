import Mathlib.Data.List.Perm.Basic
import TrtShim.Bytes.Memory

/-! # Writing to memory

A region is a first address with a number of bytes. A write changes the bytes of
its region and no others, so writes to regions that are apart keep what each of
them has written, and their order makes no difference.
-/

namespace TrtShim.Mem

/-- The address lies among the `n` bytes from another one on. -/
def Within (a p : UInt64) (n : ℕ) : Prop := (a - p).toNat < n

instance {a p : UInt64} {n : ℕ} : Decidable (Within a p n) := Nat.decLt _ _

/-- No address lies in both regions. -/
def Apart (r r' : UInt64 × ℕ) : Prop := ∀ a, Within a r.1 r.2 → ¬ Within a r'.1 r'.2

/-- The memory after bytes have been written from an address on. -/
def write (m : Mem) (p : UInt64) (bs : Bytes) : Mem := fun a => (bs[(a - p).toNat]?).getD (m a)

/-- The memory after some writes. -/
def writeAll (m : Mem) (ws : List (UInt64 × Bytes)) : Mem :=
  ws.foldl (fun m w => m.write w.1 w.2) m

/-- The region of a write. -/
def region (w : UInt64 × Bytes) : UInt64 × ℕ := (w.1, w.2.length)

variable {m m' : Mem} {p q a : UInt64} {n : ℕ} {bs : Bytes} {ws ws' : List (UInt64 × Bytes)}

theorem Apart.symm {r r' : UInt64 × ℕ} (h : Apart r r') : Apart r' r :=
  fun a ha ha' => h a ha' ha

/-- Parts of regions that are apart, from their first addresses on, are apart. -/
theorem Apart.mono {n k n' k' : ℕ} (h : Apart (p, n) (q, k)) (hn : n' ≤ n) (hk : k' ≤ k) :
    Apart (p, n') (q, k') :=
  fun a ha ha' => h a (Nat.lt_of_lt_of_le ha hn) (Nat.lt_of_lt_of_le ha' hk)

/-- An address in a region that ends below `2 ^ 64` is in the region as a number. -/
theorem within_iff (h : p.toNat + n ≤ 2 ^ 64) :
    Within a p n ↔ p.toNat ≤ a.toNat ∧ a.toNat < p.toNat + n := by
  have ha := a.toNat_lt
  have hp := p.toNat_lt
  rw [Within, UInt64.toNat_sub]
  omega

theorem apart_of_le {k : ℕ} (h : p.toNat + n ≤ q.toNat) (hq : q.toNat + k ≤ 2 ^ 64) :
    Apart (p, n) (q, k) := by
  intro a ha ha'
  rw [within_iff (Nat.le_trans h (by omega))] at ha
  rw [within_iff hq] at ha'
  omega

theorem length_read : (m.read p n).length = n := by
  induction n generalizing p with
  | zero => rfl
  | succ n ih => rw [read, List.length_cons, ih]

theorem getElem?_read {i : ℕ} (h : i < n) : (m.read p n)[i]? = some (m (p + UInt64.ofNat i)) := by
  induction n generalizing p i with
  | zero => exact absurd h (Nat.not_lt_zero i)
  | succ n ih =>
    cases i with
    | zero =>
      rw [read, List.getElem?_cons_zero]
      exact congrArg (fun q => some (m q)) (UInt64.add_zero p).symm
    | succ i =>
      rw [read, List.getElem?_cons_succ, ih (Nat.lt_of_succ_lt_succ h), succ_add_ofNat]

theorem within_of_succ (h : Within a (p + 1) n) : Within a p (n + 1) := by
  have hsub : a - p = a - (p + 1) + 1 := by
    rw [UInt64.sub_eq_iff_eq_add, UInt64.add_assoc, UInt64.add_comm 1 p, UInt64.sub_add_cancel]
  rw [Within] at h ⊢
  rw [hsub, UInt64.toNat_add]
  exact Nat.lt_of_le_of_lt (Nat.mod_le _ _) (Nat.succ_lt_succ h)

/-- What is read depends on the bytes of the region only. -/
theorem read_congr (h : ∀ a, Within a p n → m a = m' a) : m.read p n = m'.read p n := by
  induction n generalizing p with
  | zero => rfl
  | succ n ih =>
    rw [read, read, ih fun a ha => h a (within_of_succ ha)]
    have hself : Within p p (n + 1) := by
      rw [Within, UInt64.sub_self]
      exact Nat.zero_lt_succ n
    rw [h p hself]

theorem write_of_within (h : Within a p bs.length) :
    bs[(a - p).toNat]? = some (m.write p bs a) := by
  rw [write, List.getElem?_eq_getElem h, Option.getD_some]

theorem write_of_not_within (h : ¬ Within a p bs.length) : m.write p bs a = m a := by
  rw [write, List.getElem?_eq_none (Nat.le_of_not_lt h), Option.getD_none]

theorem read_write (h : bs.length ≤ 2 ^ 64) : (m.write p bs).read p bs.length = bs := by
  apply List.ext_getElem? fun i => ?_
  by_cases hi : i < bs.length
  · have hsub : (p + UInt64.ofNat i - p).toNat = i := by
      rw [UInt64.add_comm, UInt64.add_sub_cancel]
      exact UInt64.toNat_ofNat_of_lt' (Nat.lt_of_lt_of_le hi h)
    rw [getElem?_read hi, write, hsub, List.getElem?_eq_getElem hi, Option.getD_some]
  · rw [List.getElem?_eq_none (by rw [length_read]; omega), List.getElem?_eq_none (by omega)]

theorem writeAll_cons (w : UInt64 × Bytes) :
    m.writeAll (w :: ws) = (m.write w.1 w.2).writeAll ws := List.foldl_cons ..

/-- Bytes outside all regions are unchanged. -/
theorem writeAll_of_not_within (h : ∀ w ∈ ws, ¬ Within a w.1 w.2.length) :
    m.writeAll ws a = m a := by
  induction ws generalizing m with
  | nil => rfl
  | cons w ws ih =>
    rw [List.forall_mem_cons] at h
    rw [writeAll_cons, ih h.2, write_of_not_within h.1]

/-- Every write leaves its bytes in its region. -/
theorem writeAll_of_within (hapart : ws.Pairwise fun w w' => Apart (region w) (region w'))
    {w : UInt64 × Bytes} (hw : w ∈ ws) (h : Within a w.1 w.2.length) :
    w.2[(a - w.1).toNat]? = some (m.writeAll ws a) := by
  induction ws generalizing m with
  | nil => exact absurd hw List.not_mem_nil
  | cons w' ws ih =>
    rw [List.pairwise_cons] at hapart
    rw [writeAll_cons]
    rcases List.mem_cons.mp hw with rfl | hw
    · rw [writeAll_of_not_within fun w' hw' => hapart.1 w' hw' a h, write_of_within h]
    · exact ih hapart.2 hw

theorem read_writeAll (hapart : ws.Pairwise fun w w' => Apart (region w) (region w'))
    (hw : (p, bs) ∈ ws) (h : bs.length ≤ 2 ^ 64) : (m.writeAll ws).read p bs.length = bs := by
  have hread : (m.writeAll ws).read p bs.length = (m.write p bs).read p bs.length := by
    refine read_congr fun a ha => ?_
    have hall := writeAll_of_within (m := m) hapart hw ha
    exact Option.some.inj (hall.symm.trans (write_of_within ha))
  rw [hread, read_write h]

/-- The order of writes to regions that are apart makes no difference. -/
theorem writeAll_perm (hapart : ws.Pairwise fun w w' => Apart (region w) (region w'))
    (hperm : ws.Perm ws') : m.writeAll ws = m.writeAll ws' := by
  have hapart' : ws'.Pairwise fun w w' => Apart (region w) (region w') :=
    (hperm.pairwise_iff fun h => h.symm).mp hapart
  funext a
  by_cases h : ∃ w ∈ ws, Within a w.1 w.2.length
  · obtain ⟨w, hw, ha⟩ := h
    have hleft := writeAll_of_within (m := m) hapart hw ha
    have hright := writeAll_of_within (m := m) hapart' (hperm.mem_iff.mp hw) ha
    exact Option.some.inj (hleft.symm.trans hright)
  · have hnot : ∀ w ∈ ws, ¬ Within a w.1 w.2.length := fun w hw ha => h ⟨w, hw, ha⟩
    rw [writeAll_of_not_within hnot,
      writeAll_of_not_within fun w hw => hnot w (hperm.mem_iff.mpr hw)]

end TrtShim.Mem
