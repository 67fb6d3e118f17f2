import Mathlib.Data.List.Count
import Mathlib.Logic.Function.Iterate

/-! # Deterministic machines

A machine is a step function on states. The rules below are about the states
that it reaches, the number of steps of one kind among the first ones, and its
arrival at a state by a decreasing rank.
-/

namespace TrtShim.Machine

variable {σ : Type} {step : σ → σ} {s t u : σ}

/-- Some steps lead from one state to another. -/
def Reaches (step : σ → σ) (s t : σ) : Prop := ∃ k, step^[k] s = t

theorem Reaches.refl : Reaches step s s := ⟨0, rfl⟩

theorem Reaches.head (h : step s = t) (h' : Reaches step t u) : Reaches step s u := by
  obtain ⟨k, hk⟩ := h'
  exact ⟨k + 1, by rw [Function.iterate_succ_apply, h, hk]⟩

theorem Reaches.trans (h : Reaches step s t) (h' : Reaches step t u) : Reaches step s u := by
  obtain ⟨k, rfl⟩ := h
  obtain ⟨k', hk'⟩ := h'
  exact ⟨k' + k, by rw [Function.iterate_add_apply, hk']⟩

/-- A machine comes to rest in at most one state. -/
theorem Reaches.eq_of_fixed (h : Reaches step s t) (h' : Reaches step s u) (ht : step t = t)
    (hu : step u = u) : t = u := by
  obtain ⟨k, hk⟩ := h
  obtain ⟨k', hk'⟩ := h'
  have hsum : step^[k' + k] s = step^[k + k'] s := by rw [Nat.add_comm]
  rwa [Function.iterate_add_apply, Function.iterate_add_apply, hk, hk',
    Function.iterate_fixed ht, Function.iterate_fixed hu] at hsum

/-- The number of states with a property among those before the `k`-th. -/
def visits (step : σ → σ) (p : σ → Bool) (s : σ) (k : ℕ) : ℕ :=
  (List.range k).countP fun i => p (step^[i] s)

theorem visits_succ (p : σ → Bool) (k : ℕ) :
    visits step p s (k + 1) = visits step p s k + if p (step^[k] s) then 1 else 0 := by
  simp [visits, List.range_succ, List.countP_append, List.countP_singleton]

/-- What holds of the first state and is kept by every step holds of every state. -/
theorem invariant {I : ℕ → σ → Prop} (h₀ : I 0 s)
    (hstep : ∀ k, I k (step^[k] s) → I (k + 1) (step (step^[k] s))) (k : ℕ) :
    I k (step^[k] s) := by
  induction k with
  | zero => exact h₀
  | succ k ih => rw [Function.iterate_succ_apply']; exact hstep k ih

/-- A machine whose steps decrease a rank until it arrives does arrive. -/
theorem exists_of_rank {arrived : σ → Prop} (rank : σ → ℕ)
    (h : ∀ k, ¬ arrived (step^[k] s) → rank (step (step^[k] s)) < rank (step^[k] s)) :
    ∃ k ≤ rank s, arrived (step^[k] s) := by
  by_contra hnot
  have hrank : ∀ k ≤ rank s + 1, rank (step^[k] s) + k ≤ rank s := by
    intro k
    induction k with
    | zero => intro _; exact Nat.le_refl _
    | succ k ih =>
      intro hk
      have hlt := h k fun ha => hnot ⟨k, by omega, ha⟩
      have := ih (by omega)
      rw [Function.iterate_succ_apply']
      omega
  have := hrank (rank s + 1) (by omega)
  omega

end TrtShim.Machine
