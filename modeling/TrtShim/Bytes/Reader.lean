import Mathlib.Data.List.Basic
import TrtShim.Bytes.Words

/-! # Bounds-checked readers with a sticky failure flag

A reader walks a byte buffer with a cursor and a flag that a failed bounds check
clears. Later checks fail while the flag is clear, but a reader may go on
without testing it. The trail keeps what the reader did, newest first, so that
safety statements can speak about every read and allocation of a run.
`Triple` is the program logic used to reason about readers.
-/

namespace TrtShim

/-- A byte buffer whose length is a 64-bit `size_t`. -/
structure Buffer where
  bytes : Bytes
  length_lt : bytes.length < 2 ^ 64

namespace Buffer

/-- The length of the buffer as the `size_t` handed over with its address. -/
def size (b : Buffer) : UInt64 := UInt64.ofNat b.bytes.length

@[simp] theorem toNat_size (b : Buffer) : b.size.toNat = b.bytes.length := by
  rw [size, UInt64.toNat_ofNat', Nat.mod_eq_of_lt b.length_lt]

end Buffer

namespace Reading

/-- What a reader does besides moving its cursor. Slots of several kinds may be allocated. -/
inductive Action (κ : Type) where
  | check (k : UInt64)
  | read (start len : UInt64)
  | alloc (kind : κ) (count : ℕ)

/-- An action together with the cursor and the flag after it. -/
structure Event (κ : Type) where
  action : Action κ
  off : UInt64
  ok : Bool

/-- The state of a reader. -/
structure Cursor (κ : Type) where
  off : UInt64
  ok : Bool
  trail : List (Event κ)

/-- The state after an action that leaves the cursor at `off` and the flag at `ok`. -/
def Cursor.push {κ : Type} (s : Cursor κ) (action : Action κ) (off : UInt64) (ok : Bool) :
    Cursor κ :=
  ⟨off, ok, ⟨action, off, ok⟩ :: s.trail⟩

/-- A reader over a fixed buffer. It gives up by returning no value. -/
def Reader (κ α : Type) := Buffer → Cursor κ → Option α × Cursor κ

variable {κ α β : Type}

namespace Reader

instance : Monad (Reader κ) where
  pure a := fun _ s => (some a, s)
  bind m f := fun b s =>
    match m b s with
    | (some a, s') => f a b s'
    | (none, s') => (none, s')

/-- The size of the buffer. -/
def size : Reader κ UInt64 := fun b s => (some b.size, s)

/-- The current flag. -/
def isOk : Reader κ Bool := fun _ s => (some s.ok, s)

/-- Give up. -/
def fail : Reader κ α := fun _ s => (none, s)

/-- Give up unless the condition holds. -/
def require (c : Bool) : Reader κ Unit := if c then pure () else fail

/-- Check that the next `k` bytes lie in the buffer, clearing the flag if they do not. -/
def need (k : UInt64) : Reader κ Bool := fun b s =>
  let ok := s.ok && !(decide (s.off > b.size) || decide (k > b.size - s.off))
  (some ok, s.push (.check k) s.off ok)

/-- Read the next `k` bytes without moving. -/
def view (k : UInt64) : Reader κ Bytes := fun b s =>
  (some ((b.bytes.drop s.off.toNat).take k.toNat), s.push (.read s.off k) s.off s.ok)

/-- Read the next `k` bytes and move past them. -/
def take (k : UInt64) : Reader κ Bytes := fun b s =>
  (some ((b.bytes.drop s.off.toNat).take k.toNat), s.push (.read s.off k) (s.off + k) s.ok)

/-- Record the allocation of `count` slots. -/
def alloc (kind : κ) (count : ℕ) : Reader κ Unit := fun _ s =>
  (some (), s.push (.alloc kind count) s.off s.ok)

/-- Read a little-endian word of `k` bytes; it stays zero when the check fails. -/
def word (k : UInt64) : Reader κ ℕ := do
  if ← need k then return Words.ofLe (← take k) else return 0

/-- Run a reader `k` times and collect the values. -/
def times : ℕ → Reader κ α → Reader κ (List α)
  | 0, _ => pure []
  | k + 1, m => do
    let a ← m
    let as ← times k m
    return a :: as

end Reader

/-- From every state in `P` the reader returns a value in `Q` or gives up in `E`. -/
def Triple (b : Buffer) (P : Cursor κ → Prop) (m : Reader κ α)
    (Q : α → Cursor κ → Prop) (E : Cursor κ → Prop) : Prop :=
  ∀ s, P s → match m b s with
    | (some a, s') => Q a s'
    | (none, s') => E s'

namespace Triple

variable {b : Buffer} {P P' : Cursor κ → Prop} {E : Cursor κ → Prop}
  {Q Q' : α → Cursor κ → Prop} {R : β → Cursor κ → Prop}

theorem pure {a : α} (h : ∀ s, P s → Q a s) : Triple b P (Pure.pure a) Q E := h

theorem bind {m : Reader κ α} {f : α → Reader κ β} (hm : Triple b P m Q E)
    (hf : ∀ a, Triple b (Q a) (f a) R E) : Triple b P (m >>= f) R E := by
  intro s hs
  have h := hm s hs
  change match (match m b s with
    | (some a, s') => f a b s'
    | (none, s') => (none, s')) with
    | (some a, s') => R a s'
    | (none, s') => E s'
  match hr : m b s with
  | (some a, s') => rw [hr] at h; exact hf a s' h
  | (none, s') => rw [hr] at h; exact h

theorem conseq {m : Reader κ α} (h : Triple b P m Q E) (hP : ∀ s, P' s → P s)
    (hQ : ∀ a s, Q a s → Q' a s) : Triple b P' m Q' E := by
  intro s hs
  have h' := h s (hP s hs)
  match hr : m b s with
  | (some a, s') => rw [hr] at h'; exact hQ a s' h'
  | (none, s') => rw [hr] at h'; exact h'

theorem pre {m : Reader κ α} (h : Triple b P m Q E) (hP : ∀ s, P' s → P s) :
    Triple b P' m Q E := h.conseq hP fun _ _ h => h

/-- Sequencing after a reader whose value is known. -/
theorem bind_eq {m : Reader κ α} {f : α → Reader κ β} {a : α} {S : Cursor κ → Prop}
    (hm : Triple b P m (fun v s => v = a ∧ S s) E) (hf : Triple b S (f a) R E) :
    Triple b P (m >>= f) R E :=
  hm.bind fun v s h => by
    obtain ⟨rfl, hs⟩ := h
    exact hf s hs

theorem map {m : Reader κ α} {f : α → β} (h : Triple b P m Q E)
    (hR : ∀ a s, Q a s → R (f a) s) : Triple b P (f <$> m) R E :=
  h.bind fun a => Triple.pure fun s hs => hR a s hs

theorem size {R : UInt64 → Cursor κ → Prop} (h : ∀ s, P s → R b.size s) :
    Triple b P Reader.size R E := h

theorem isOk {R : Bool → Cursor κ → Prop} (h : ∀ s, P s → R s.ok s) :
    Triple b P Reader.isOk R E := h

theorem fail (h : ∀ s, P s → E s) : Triple b P Reader.fail Q E := h

theorem require {c : Bool} {R : Unit → Cursor κ → Prop}
    (ht : c = true → ∀ s, P s → R () s) (hf : c = false → ∀ s, P s → E s) :
    Triple b P (Reader.require c) R E := by
  cases c
  · exact fail (hf rfl)
  · exact pure (ht rfl)

theorem of_and {φ : Prop} {m : Reader κ α} (h : φ → Triple b P m Q E) :
    Triple b (fun s => P s ∧ φ) m Q E :=
  fun s hs => h hs.2 s hs.1

theorem given {φ : Prop} {m : Reader κ α} (hφ : ∀ s, P s → φ) (h : φ → Triple b P m Q E) :
    Triple b P m Q E :=
  fun s hs => h (hφ s hs) s hs

theorem require_bind {c : Bool} {m : Reader κ α} {R : Cursor κ → Prop}
    (ht : c = true → ∀ s, P s → R s) (hf : c = false → ∀ s, P s → E s)
    (hm : Triple b R m Q E) : Triple b P (Reader.require c >>= fun _ => m) Q E :=
  (require (R := fun _ => R) ht hf).bind fun _ => hm

/-- Giving up if a check has failed. -/
theorem isOk_require {m : Reader κ α} (hf : ∀ s, P s → E s)
    (hm : Triple b (fun s => P s ∧ s.ok = true) m Q E) :
    Triple b P (Reader.isOk >>= fun c => Reader.require c >>= fun _ => m) Q E :=
  (isOk (R := fun c s => P s ∧ s.ok = c) fun _ h => ⟨h, rfl⟩).bind fun _ =>
    require_bind (fun hc _ h => ⟨h.1, h.2.trans hc⟩) (fun _ _ h => hf _ h.1) hm

/-- Giving up if a count exceeds the size of the buffer. -/
theorem size_require {k : UInt64} {m : Reader κ α} (hf : ∀ s, P s → E s)
    (hm : k.toNat ≤ b.bytes.length → Triple b P m Q E) :
    Triple b P (Reader.size >>= fun n => Reader.require (k ≤ n) >>= fun _ => m) Q E := by
  refine (size (R := fun n s => P s ∧ n = b.size) fun _ h => ⟨h, rfl⟩).bind fun n => ?_
  refine of_and fun hn => ?_
  by_cases hk : k ≤ n
  · refine require_bind (fun _ _ h => h) (fun _ => hf) (hm ?_)
    rwa [hn, UInt64.le_iff_toNat_le, Buffer.toNat_size] at hk
  · have hr : Triple b P (Reader.require (k ≤ n)) (fun _ _ => False) E :=
      require (fun hc => absurd (of_decide_eq_true hc) hk) fun _ => hf
    exact hr.bind fun _ _ h => h.elim

theorem of_exists {ι : Type} {P : ι → Cursor κ → Prop} {m : Reader κ α}
    (h : ∀ i, Triple b (P i) m Q E) : Triple b (fun s => ∃ i, P i s) m Q E :=
  fun s ⟨i, hs⟩ => h i s hs

theorem ite {c : Bool} {m m' : Reader κ α} (ht : c = true → Triple b P m Q E)
    (hf : c = false → Triple b P m' Q E) : Triple b P (if c then m else m') Q E := by
  cases c
  · exact hf rfl
  · exact ht rfl

/-- An invariant of the loop body, indexed by the number of passes made, holds after the loop. -/
theorem times {m : Reader κ α} {k : ℕ} {I : ℕ → Cursor κ → Prop}
    (hm : ∀ i < k, Triple b (I i) m (fun _ => I (i + 1)) E) :
    Triple b (I 0) (Reader.times k m) (fun _ => I k) E := by
  induction k generalizing I with
  | zero => exact pure fun _ h => h
  | succ k ih =>
    have hrest := ih (I := fun i => I (i + 1)) fun i hi => hm (i + 1) (by omega)
    exact (hm 0 (by omega)).bind fun a => hrest.bind fun as => pure fun _ h => h

end Triple

/-! ## Reading back what was written -/

/-- The reader has not failed and the unread part of the buffer is `rest`. -/
structure At (b : Buffer) (rest : Bytes) (s : Cursor κ) : Prop where
  ok : s.ok = true
  off_le : s.off.toNat ≤ b.bytes.length
  drop : b.bytes.drop s.off.toNat = rest

variable {b : Buffer} {E : Cursor κ → Prop}

theorem At.length {rest : Bytes} {s : Cursor κ} (h : At b rest s) :
    s.off.toNat + rest.length = b.bytes.length := by
  have hl := congrArg List.length h.drop
  have := h.off_le
  rw [List.length_drop] at hl
  omega

theorem need_iff {k : UInt64} {s : Cursor κ} :
    (s.ok && !(decide (s.off > b.size) || decide (k > b.size - s.off))) = true ↔
      s.ok = true ∧ s.off.toNat + k.toNat ≤ b.bytes.length := by
  have hn := b.toNat_size
  simp only [Bool.and_eq_true, Bool.not_eq_true', Bool.or_eq_false_iff, decide_eq_false_iff_not,
    gt_iff_lt, UInt64.not_lt]
  refine and_congr_right fun _ => ?_
  constructor
  · rintro ⟨ho, hk⟩
    rw [UInt64.le_iff_toNat_le, UInt64.toNat_sub_of_le _ _ ho] at hk
    rw [UInt64.le_iff_toNat_le] at ho
    omega
  · intro h
    have ho : s.off ≤ b.size := by rw [UInt64.le_iff_toNat_le]; omega
    refine ⟨ho, ?_⟩
    rw [UInt64.le_iff_toNat_le, UInt64.toNat_sub_of_le _ _ ho]
    omega

theorem toNat_advance {k off : UInt64} (h : off.toNat + k.toNat ≤ b.bytes.length) :
    (off + k).toNat = off.toNat + k.toNat := by
  have := b.length_lt
  rw [UInt64.toNat_add, Nat.mod_eq_of_lt (by omega)]

theorem isOk_at {rest : Bytes} :
    Triple b (At b rest) Reader.isOk (fun c s => c = true ∧ At b rest s) E :=
  Triple.isOk fun _ h => ⟨h.ok, h⟩

theorem need_at {rest : Bytes} {k : UInt64} (hk : k.toNat ≤ rest.length) :
    Triple b (At b rest) (Reader.need k) (fun c s => c = true ∧ At b rest s) E := by
  intro s h
  have hl := h.length
  have hc := need_iff.mpr ⟨h.ok, (by omega : s.off.toNat + k.toNat ≤ b.bytes.length)⟩
  exact ⟨hc, hc, h.off_le, h.drop⟩

theorem view_at {x rest : Bytes} {k : UInt64} (hk : x.length = k.toNat) :
    Triple b (At b (x ++ rest)) (Reader.view k)
      (fun v s => v = x ∧ At b (x ++ rest) s) E := by
  intro s h
  refine ⟨?_, h.ok, h.off_le, h.drop⟩
  rw [h.drop, ← hk, List.take_left]

theorem take_at {x rest : Bytes} {k : UInt64} (hk : x.length = k.toNat) :
    Triple b (At b (x ++ rest)) (Reader.take k) (fun v s => v = x ∧ At b rest s) E := by
  intro s h
  have hl := h.length
  have ha : s.off.toNat + k.toNat ≤ b.bytes.length := by
    rw [List.length_append] at hl
    omega
  refine ⟨?_, h.ok, ?_, ?_⟩
  · rw [h.drop, ← hk, List.take_left]
  · change (s.off + k).toNat ≤ b.bytes.length
    rwa [toNat_advance ha]
  · change b.bytes.drop (s.off + k).toNat = rest
    rw [toNat_advance ha, ← List.drop_drop, h.drop, ← hk, List.drop_left]

theorem word_at {v : ℕ} {rest : Bytes} {k : UInt64} (hv : v < 256 ^ k.toNat) :
    Triple b (At b (Words.le k.toNat v ++ rest)) (Reader.word k)
      (fun r s => r = v ∧ At b rest s) E := by
  refine (need_at (by simp)).bind_eq ((take_at (Words.length_le _ _)).bind_eq ?_)
  exact Triple.pure fun s h => ⟨Words.ofLe_le_of_lt hv, h⟩

/-- A list written entry by entry is read back by as many passes of its entries' reader. -/
theorem times_at {m : Reader κ α} {enc : α → Bytes} {as : List α} {rest : Bytes}
    (hm : ∀ a ∈ as, ∀ rest, Triple b (At b (enc a ++ rest)) m
      (fun v s => v = a ∧ At b rest s) E) :
    Triple b (At b (as.flatMap enc ++ rest)) (Reader.times as.length m)
      (fun v s => v = as ∧ At b rest s) E := by
  induction as with
  | nil => exact Triple.pure fun s h => ⟨rfl, h⟩
  | cons a as ih =>
    rw [List.flatMap_cons, List.append_assoc]
    refine (hm a List.mem_cons_self _).bind_eq ?_
    refine (ih fun a' ha' => hm a' (List.mem_cons_of_mem _ ha')).bind_eq ?_
    exact Triple.pure fun s h => ⟨rfl, h⟩

end Reading

end TrtShim
