import TrtShim.Bytes.Reader

/-! # What a reader has consumed

The bytes before the cursor of a run that has not failed can be written again
from the values that it has read. The rules below follow a run through these
bytes, so that what a reader accepts is known byte by byte.
-/

namespace TrtShim.Reading

variable {κ α : Type}

/-- Unless the run has failed, the bytes before its cursor are `pre`, and `φ` holds. -/
def Consumed (b : Buffer) (pre : Bytes) (φ : Prop) (s : Cursor κ) : Prop :=
  s.ok = true → s.off.toNat ≤ b.bytes.length ∧ b.bytes.take s.off.toNat = pre ∧ φ

/-- The run has not failed and has `r` more bytes in its buffer. -/
def Ready (b : Buffer) (pre : Bytes) (φ : Prop) (r : ℕ) (s : Cursor κ) : Prop :=
  Consumed b pre φ s ∧ s.ok = true ∧ s.off.toNat + r ≤ b.bytes.length

variable {b : Buffer} {pre : Bytes} {φ : Prop} {E : Cursor κ → Prop}

theorem need_consumed (k : UInt64) : Triple b (Consumed b pre φ) (Reader.need k)
    (fun r s => Consumed b pre φ s ∧ s.ok = r ∧
      (r = true → s.off.toNat + k.toNat ≤ b.bytes.length)) E := by
  intro s h
  exact ⟨fun hok => h (need_iff.mp hok).1, rfl, fun hr => (need_iff.mp hr).2⟩

/-- Giving up unless the next `k` bytes lie in the buffer. -/
theorem need_require_consumed {Q : α → Cursor κ → Prop} {m : Reader κ α} {k : UInt64}
    (hm : Triple b (Ready b pre φ k.toNat) m Q E) (hE : ∀ s, E s) :
    Triple b (Consumed b pre φ)
      (Reader.need k >>= fun r => Reader.require r >>= fun _ => m) Q E :=
  (need_consumed k).bind fun _ => Triple.require_bind
    (fun hr _ h => ⟨h.1, h.2.1.trans hr, h.2.2 hr⟩) (fun _ s _ => hE s) hm

theorem take_consumed (k : UInt64) (r : ℕ) :
    Triple b (Ready b pre φ (k.toNat + r)) (Reader.take k)
      (fun v s => Ready b (pre ++ v) φ r s ∧ v.length = k.toNat) E := by
  rintro s ⟨h, hok, hk⟩
  obtain ⟨hoff, hpre, hφ⟩ := h hok
  have ha : (s.off + k).toNat = s.off.toNat + k.toNat :=
    toNat_advance (b := b) (by omega)
  refine ⟨⟨fun _ => ⟨?_, ?_, hφ⟩, hok, ?_⟩, ?_⟩
  · change (s.off + k).toNat ≤ b.bytes.length
    omega
  · change b.bytes.take (s.off + k).toNat = _
    rw [ha, List.take_add, hpre]
  · change (s.off + k).toNat + r ≤ b.bytes.length
    omega
  · rw [List.length_take, List.length_drop]
    omega

theorem word_consumed (k : UInt64) : Triple b (Consumed b pre φ) (Reader.word k)
    (fun v s => Consumed b (pre ++ Words.le k.toNat v) φ s ∧ v < 256 ^ k.toNat) E := by
  apply (need_consumed k).bind
  intro r
  apply Triple.ite
  · intro hr
    apply ((take_consumed k 0).pre fun s h => ⟨h.1, h.2.1.trans hr, h.2.2 hr⟩).bind
    intro bs
    apply Triple.pure
    rintro s ⟨hready, hlen⟩
    rw [← hlen, Words.le_ofLe]
    exact ⟨hready.1, Words.ofLe_lt bs⟩
  · intro hr
    apply Triple.pure
    refine fun s h => ⟨fun hok => ?_, Nat.pow_pos (by decide)⟩
    exact absurd (h.2.1.symm.trans hok) (by rw [hr]; decide)

/-- The last bytes of a run stand behind the ones consumed before. -/
theorem view_consumed (k : UInt64) : Triple b (Ready b pre φ k.toNat) (Reader.view k)
    (fun v _ => (∃ rest, b.bytes = pre ++ v ++ rest) ∧ v.length = k.toNat ∧ φ) E := by
  rintro s ⟨h, hok, hk⟩
  obtain ⟨hoff, rfl, hφ⟩ := h hok
  refine ⟨⟨b.bytes.drop (s.off.toNat + k.toNat), ?_⟩, ?_, hφ⟩
  · rw [← List.take_add, List.take_append_drop]
  · rw [List.length_take, List.length_drop]
    omega

theorem alloc_consumed (kind : κ) (count : ℕ) : Triple b (Consumed b pre φ)
    (Reader.alloc kind count) (fun _ => Consumed b pre φ) E :=
  fun _ h => h

/-- A loop has consumed what its passes have consumed, one after the other. -/
theorem times_consumed {m : Reader κ α} {enc : α → Bytes} {ψ : α → Prop}
    (hm : ∀ pre φ, Triple b (Consumed b pre φ) m
      (fun v => Consumed b (pre ++ enc v) (φ ∧ ψ v)) E) (k : ℕ) :
    Triple b (Consumed b pre φ) (Reader.times k m) (fun vs s =>
      Consumed b (pre ++ vs.flatMap enc) (φ ∧ ∀ v ∈ vs, ψ v) s ∧ vs.length = k) E := by
  induction k generalizing pre φ with
  | zero =>
    apply Triple.pure
    refine fun s h => ⟨fun hok => ?_, rfl⟩
    obtain ⟨hoff, hpre, hφ⟩ := h hok
    exact ⟨hoff, by simpa using hpre, hφ, by simp⟩
  | succ k ih =>
    apply (hm pre φ).bind
    intro v
    apply ih.bind
    intro vs
    apply Triple.pure
    rintro s ⟨h, hlen⟩
    constructor
    · intro hok
      obtain ⟨hoff, hpre, ⟨hφ, hv⟩, hvs⟩ := h hok
      rw [List.append_assoc] at hpre
      exact ⟨hoff, hpre, hφ, List.forall_mem_cons.mpr ⟨hv, hvs⟩⟩
    · rw [List.length_cons, hlen]

end TrtShim.Reading
