import Mathlib.Data.Nat.Notation
import Mathlib.Data.List.Basic

/-! # Draining a source

A loop draws items from a source until it has none left or fails, and folds them
into an accumulator. It ends exactly if the source stops yielding items.
-/

namespace TrtShim.Drain

variable {σ α β ε : Type} (next : σ → Except ε (Option β) × σ) (step : α → β → α)

/-- Fold the items of a source. No value stands for a loop that has not ended after this number of
passes. -/
def drain : ℕ → σ → α → Option (Except ε α × σ)
  | 0, _, _ => none
  | passes + 1, s, acc =>
    match next s with
    | (.error what, s') => some (.error what, s')
    | (.ok none, s') => some (.ok acc, s')
    | (.ok (some item), s') => drain passes s' (step acc item)

/-- From one state to another the source yields these items. -/
inductive Yields : σ → List β → σ → Prop where
  | nil (s : σ) : Yields s [] s
  | cons {s s' t : σ} {item : β} {items : List β} (hnext : next s = (.ok (some item), s'))
      (h : Yields s' items t) : Yields s (item :: items) t

/-- The source stops in a state: it has no item left, or it fails. -/
def Stops (t : σ) (r : Except ε Unit) (u : σ) : Prop :=
  next t = (r.map fun _ => none, u)

variable {next step} {s t u : σ} {items : List β} {acc : α} {passes : ℕ}

/-- The loop ends in a state with a result exactly if the source yields some items and then
stops there. -/
theorem drain_eq_some_iff {r : Except ε α} : drain next step passes s acc = some (r, u) ↔
    ∃ items t stop, Yields next s items t ∧ items.length < passes ∧ Stops next t stop u ∧
      r = stop.map fun _ => items.foldl step acc := by
  induction passes generalizing s acc with
  | zero => simp [drain]
  | succ passes ih =>
    rw [drain]
    constructor
    · intro h
      split at h
      next what s' hnext =>
        obtain ⟨rfl, rfl⟩ := Prod.mk.inj (Option.some.inj h)
        exact ⟨[], s, .error what, .nil s, Nat.zero_lt_succ _, hnext, rfl⟩
      next s' hnext =>
        obtain ⟨rfl, rfl⟩ := Prod.mk.inj (Option.some.inj h)
        exact ⟨[], s, .ok (), .nil s, Nat.zero_lt_succ _, hnext, rfl⟩
      next item s' hnext =>
        obtain ⟨items, t, stop, hyields, hlt, hstop, rfl⟩ := ih.mp h
        exact ⟨item :: items, t, stop, .cons hnext hyields, Nat.succ_lt_succ hlt, hstop, rfl⟩
    · rintro ⟨items, t, stop, hyields, hlt, hstop, rfl⟩
      cases hyields with
      | nil =>
        rcases stop with what | _
        · rw [show next s = (.error what, u) from hstop]
          rfl
        · rw [show next s = (.ok none, u) from hstop]
          rfl
      | cons hnext hyields =>
        rw [hnext]
        exact ih.mpr ⟨_, t, stop, hyields, Nat.lt_of_succ_lt_succ hlt, hstop, rfl⟩

/-- The loop has not ended after some passes exactly if the source yields as many items. -/
theorem drain_eq_none_iff : drain next step passes s acc = none ↔
    ∃ items t, Yields next s items t ∧ items.length = passes := by
  induction passes generalizing s acc with
  | zero =>
    refine iff_of_true rfl ⟨[], s, .nil s, rfl⟩
  | succ passes ih =>
    rw [drain]
    constructor
    · intro h
      split at h
      next => exact absurd h (by simp)
      next => exact absurd h (by simp)
      next item s' hnext =>
        obtain ⟨items, t, hyields, hlen⟩ := ih.mp h
        exact ⟨item :: items, t, .cons hnext hyields, congrArg Nat.succ hlen⟩
    · rintro ⟨items, t, hyields, hlen⟩
      cases hyields with
      | nil => exact absurd hlen (Nat.succ_ne_zero passes).symm
      | cons hnext hyields =>
        rw [hnext]
        exact ih.mpr ⟨_, t, hyields, Nat.succ.inj hlen⟩

/-- Draining a source whose items are made of those of another one. -/
theorem drain_map {γ : Type} {next' : σ → Except ε (Option γ) × σ} {f : γ → β}
    (h : ∀ s, next s = ((next' s).1.map fun item => item.map f, (next' s).2)) :
    drain next step passes s acc = drain next' (fun acc c => step acc (f c)) passes s acc := by
  induction passes generalizing s acc with
  | zero => rfl
  | succ passes ih =>
    rw [drain, drain, h]
    obtain ⟨_ | _ | c, s'⟩ := next' s
    · rfl
    · rfl
    · exact ih

end TrtShim.Drain
