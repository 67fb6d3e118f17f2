import Mathlib.Algebra.BigOperators.Group.List.Basic
import TrtShim.Bytes.Reader

/-! # Readers that stay inside their buffer

A sound run reads only inside the buffer, keeps its cursor there, and never sets
the flag again once it is clear. `Paid` adds the accounts that bound what a run
allocates: the bytes consumed by a run that has not failed, and the slots
allocated so far.
-/

namespace TrtShim.Reading

variable {κ α : Type}

/-- The event left the cursor inside a buffer of `n` bytes and read only inside it. -/
def Event.Within (n : ℕ) (e : Event κ) : Prop :=
  e.off.toNat ≤ n ∧ ∀ start len, e.action = .read start len → start.toNat + len.toNat ≤ n

/-- The slots of one kind that an action allocates. -/
def Action.slots [DecidableEq κ] (kind : κ) : Action κ → ℕ
  | .alloc kind' count => if kind' = kind then count else 0
  | .check _ => 0
  | .read _ _ => 0

/-- The slots of one kind allocated so far. -/
def Cursor.slots [DecidableEq κ] (kind : κ) (s : Cursor κ) : ℕ :=
  (s.trail.map fun e => e.action.slots kind).sum

@[simp] theorem Cursor.slots_push [DecidableEq κ] (s : Cursor κ) (action : Action κ)
    (off : UInt64) (ok : Bool) (kind : κ) :
    (s.push action off ok).slots kind = action.slots kind + s.slots kind := by
  simp [Cursor.slots, Cursor.push]

/-- The run so far stayed inside a buffer of `n` bytes and its flag only ever went from
set to clear. -/
structure Cursor.Sound (n : ℕ) (s : Cursor κ) : Prop where
  off_le : s.off.toNat ≤ n
  within : ∀ e ∈ s.trail, e.Within n
  sticky : s.ok = true → ∀ e ∈ s.trail, e.ok = true
  ordered : s.trail.Pairwise fun later earlier => later.ok = true → earlier.ok = true

theorem Cursor.Sound.push {n : ℕ} {s : Cursor κ} (h : s.Sound n) {action : Action κ}
    {off : UInt64} {ok : Bool} (hoff : off.toNat ≤ n)
    (hread : ∀ start len, action = .read start len → start.toNat + len.toNat ≤ n)
    (hok : ok = true → s.ok = true) : (s.push action off ok).Sound n where
  off_le := hoff
  within := List.forall_mem_cons.mpr ⟨⟨hoff, hread⟩, h.within⟩
  sticky hs := List.forall_mem_cons.mpr ⟨hs, h.sticky (hok hs)⟩
  ordered := List.pairwise_cons.mpr ⟨fun _ he hs => h.sticky (hok hs) _ he, h.ordered⟩

variable [DecidableEq κ]

/-- A sound run that has consumed `c` bytes unless it failed, allocated the slots `f` and taken
at most `t` actions. -/
structure Paid (b : Buffer) (c : ℕ) (f : κ → ℕ) (t : ℕ) (s : Cursor κ) : Prop where
  sound : s.Sound b.bytes.length
  paid : s.ok = true → c ≤ s.off.toNat
  slots : ∀ kind, s.slots kind = f kind
  steps : s.trail.length ≤ t

variable {b : Buffer} {c t : ℕ} {f : κ → ℕ} {E : Cursor κ → Prop}

theorem Paid.mono {c' t' : ℕ} {s : Cursor κ} (h : Paid b c f t s) (hc : c' ≤ c) (ht : t ≤ t') :
    Paid b c' f t' s :=
  ⟨h.sound, fun hs => Nat.le_trans hc (h.paid hs), h.slots, Nat.le_trans h.steps ht⟩

theorem Paid.push {s : Cursor κ} (h : Paid b c f t s) (action : Action κ) (c' : ℕ)
    {off : UInt64} {ok : Bool} (hoff : off.toNat ≤ b.bytes.length)
    (hread : ∀ start len, action = .read start len → start.toNat + len.toNat ≤ b.bytes.length)
    (hok : ok = true → s.ok = true) (hpaid : ok = true → c' ≤ off.toNat) :
    Paid b c' (fun k => action.slots k + f k) (t + 1) (s.push action off ok) where
  sound := h.sound.push hoff hread hok
  paid := hpaid
  slots kind := by rw [Cursor.slots_push, h.slots]
  steps := Nat.succ_le_succ h.steps

theorem need_paid (k : UInt64) : Triple b (Paid b c f t) (Reader.need k)
    (fun r s => Paid b c f (t + 1) s ∧ s.ok = r ∧
      (r = true → s.off.toNat + k.toNat ≤ b.bytes.length)) E := by
  intro s h
  refine ⟨?_, rfl, fun hr => (need_iff.mp hr).2⟩
  simpa [Action.slots] using h.push (.check k) c h.sound.off_le (by simp)
    (fun hr => (need_iff.mp hr).1) fun hr => h.paid (need_iff.mp hr).1

/-- A paid run that has not failed and has `r` more bytes in its buffer. -/
def Checked (b : Buffer) (c : ℕ) (f : κ → ℕ) (t r : ℕ) (s : Cursor κ) : Prop :=
  Paid b c f t s ∧ s.ok = true ∧ s.off.toNat + r ≤ b.bytes.length

/-- Giving up unless the next `k` bytes lie in the buffer. -/
theorem need_require_paid {Q : α → Cursor κ → Prop} {m : Reader κ α} {k : UInt64}
    (hm : Triple b (Checked b c f (t + 1) k.toNat) m Q E)
    (hE : ∀ s, Paid b c f (t + 1) s → E s) :
    Triple b (Paid b c f t) (Reader.need k >>= fun r => Reader.require r >>= fun _ => m) Q E :=
  (need_paid k).bind fun _ => Triple.require_bind
    (fun hr _ h => ⟨h.1, h.2.1.trans hr, h.2.2 hr⟩) (fun _ _ h => hE _ h.1) hm

theorem take_paid (k : UInt64) (r : ℕ) :
    Triple b (Checked b c f t (k.toNat + r)) (Reader.take k)
      (fun _ => Checked b (c + k.toNat) f (t + 1) r) E := by
  rintro s ⟨h, hok, hk⟩
  have hk' : s.off.toNat + k.toNat ≤ b.bytes.length := by omega
  have ha := toNat_advance hk'
  have hp := h.paid hok
  have hread : ∀ start len, (.read s.off k : Action κ) = .read start len →
      start.toNat + len.toNat ≤ b.bytes.length := by
    rintro start len ⟨⟩
    exact hk'
  refine ⟨?_, hok, ?_⟩
  · simpa [Action.slots] using h.push _ (c + k.toNat) (ha.symm ▸ hk') hread (fun hs => hs)
      fun _ => ha.symm ▸ Nat.add_le_add_right hp _
  · change (s.off + k).toNat + r ≤ b.bytes.length
    omega

theorem view_paid (k : UInt64) :
    Triple b (Checked b c f t k.toNat) (Reader.view k)
      (fun _ s => Paid b c f (t + 1) s ∧ s.ok = true) E := by
  rintro s ⟨h, hok, hk⟩
  have hread : ∀ start len, (.read s.off k : Action κ) = .read start len →
      start.toNat + len.toNat ≤ b.bytes.length := by
    rintro start len ⟨⟩
    exact hk
  refine ⟨?_, hok⟩
  simpa [Action.slots] using h.push _ c h.sound.off_le hread (fun hs => hs) h.paid

theorem word_paid (k : UInt64) : Triple b (Paid b c f t) (Reader.word k)
    (fun _ => Paid b (c + k.toNat) f (t + 2)) E := by
  refine (need_paid k).bind fun r => Triple.ite (fun hr => ?_) fun hr => ?_
  · refine ((take_paid k 0).pre fun s h => ⟨h.1, h.2.1.trans hr, h.2.2 hr⟩).bind fun x => ?_
    exact Triple.pure fun s h => h.1
  · refine Triple.pure fun s h => ⟨h.1.sound, fun hs => ?_, h.1.slots, ?_⟩
    · exact absurd (h.2.1.symm.trans hs) (by rw [hr]; decide)
    · exact Nat.le_succ_of_le h.1.steps

theorem alloc_paid (kind : κ) (count : ℕ) : Triple b (Paid b c f t) (Reader.alloc kind count)
    (fun _ => Paid b c (fun k => (if kind = k then count else 0) + f k) (t + 1)) E :=
  fun _ h => h.push (.alloc kind count) c h.sound.off_le (by simp) (fun hs => hs) h.paid

/-- A loop whose body consumes `d` bytes and allocates nothing consumes `d` bytes a pass. -/
theorem times_paid {m : Reader κ α} {d e : ℕ}
    (hm : ∀ c t, Triple b (Paid b c f t) m (fun _ => Paid b (c + d) f (t + e)) E) (k : ℕ) :
    Triple b (Paid b c f t) (Reader.times k m) (fun _ => Paid b (c + d * k) f (t + e * k)) E := by
  have hi (i : ℕ) (_ : i < k) : Triple b (Paid b (c + d * i) f (t + e * i)) m
      (fun _ => Paid b (c + d * (i + 1)) f (t + e * (i + 1))) E :=
    (hm _ _).conseq (fun _ h => h) fun _ _ h => by
      rwa [Nat.mul_succ, Nat.mul_succ, ← Nat.add_assoc, ← Nat.add_assoc]
  simpa using Triple.times hi

end TrtShim.Reading
