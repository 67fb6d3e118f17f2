import Mathlib.Data.Int.Notation
import Mathlib.Data.Nat.Notation

/-! # Text balanced in brackets

A text is balanced if every closing bracket closes the last bracket that is still
open. The nesting depth that a scanner counts is then the number of open brackets,
and it is back at its start when the text ends.
-/

namespace TrtShim.Brackets

variable {α : Type} [DecidableEq α]

/-- How a symbol changes the nesting depth, given the opening and the closing brackets. -/
def delta (pairs : List (α × α)) (c : α) : ℤ :=
  if c ∈ pairs.map Prod.fst then 1 else if c ∈ pairs.map Prod.snd then -1 else 0

/-- The text closes the open brackets, the last one first, and every bracket that it opens. Every
symbol at depth zero passes the test. -/
def balanced (pairs : List (α × α)) (top : α → Bool) : List α → List α → Bool
  | stack, [] => stack.isEmpty
  | stack, c :: cs =>
    (!stack.isEmpty || top c) &&
      match pairs.find? fun p => p.1 = c with
      | some p => balanced pairs top (p.2 :: stack) cs
      | none =>
        if c ∈ pairs.map Prod.snd then
          match stack with
          | close :: stack => c = close && balanced pairs top stack cs
          | [] => false
        else balanced pairs top stack cs

variable {pairs : List (α × α)} {top : α → Bool} {stack : List α} {c : α} {cs : List α}

/-- The rest of a balanced text is balanced, with the depth that the first symbol leaves. -/
theorem balanced_cons (h : balanced pairs top stack (c :: cs) = true) :
    (stack = [] → top c = true) ∧ ∃ stack', balanced pairs top stack' cs = true ∧
      (stack'.length : ℤ) = stack.length + delta pairs c := by
  unfold balanced at h
  rw [Bool.and_eq_true, Bool.or_eq_true] at h
  obtain ⟨htop, hrest⟩ := h
  constructor
  · rintro rfl
    exact htop.resolve_left (by simp)
  · split at hrest
    next p hp =>
      have hmem : c ∈ pairs.map Prod.fst := by
        have hfst := List.find?_some hp
        rw [decide_eq_true_iff] at hfst
        exact hfst ▸ List.mem_map_of_mem (List.mem_of_find?_eq_some hp)
      refine ⟨_, hrest, ?_⟩
      rw [delta, if_pos hmem, List.length_cons, Int.natCast_add]
      rfl
    next hnone =>
      have hfst : c ∉ pairs.map Prod.fst := by
        intro hmem
        obtain ⟨p, hp, rfl⟩ := List.mem_map.mp hmem
        exact absurd (List.find?_eq_none.mp hnone p hp) (by simp)
      split at hrest
      next hsnd =>
        cases stack with
        | nil => exact absurd hrest (by simp)
        | cons close stack =>
          rw [Bool.and_eq_true] at hrest
          refine ⟨stack, hrest.2, ?_⟩
          rw [delta, if_neg hfst, if_pos hsnd, List.length_cons]
          omega
      next hsnd =>
        refine ⟨stack, hrest, ?_⟩
        rw [delta, if_neg hfst, if_neg hsnd, Int.add_zero]

section Scan

variable {β : Type} {F : ℤ → List α → β} {g : α → β → β} {s : List α}

theorem scan_stack (hF : ∀ (d : ℕ) c cs, (d = 0 → top c = true) →
      F d (c :: cs) = g c (F (d + delta pairs c) cs))
    (h : balanced pairs top stack s = true) (rest : List α) :
    F stack.length (s ++ rest) = s.foldr g (F 0 rest) := by
  induction s generalizing stack with
  | nil =>
    obtain rfl := List.isEmpty_iff.mp h
    rfl
  | cons c cs ih =>
    obtain ⟨htop, stack', hrest, hdepth⟩ := balanced_cons h
    rw [List.cons_append, hF _ _ _ fun hlen => htop (List.eq_nil_of_length_eq_zero hlen),
      ← hdepth, ih hrest, List.foldr_cons]

/-- A scan whose treatment of a symbol depends on no more than whether the symbol stands at depth
zero treats all of a balanced text alike, and goes on at depth zero. -/
theorem scan_balanced (hF : ∀ (d : ℕ) c cs, (d = 0 → top c = true) →
      F d (c :: cs) = g c (F (d + delta pairs c) cs))
    (h : balanced pairs top [] s = true) (rest : List α) :
    F 0 (s ++ rest) = s.foldr g (F 0 rest) :=
  scan_stack hF h rest

end Scan

end TrtShim.Brackets
