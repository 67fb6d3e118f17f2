import Mathlib.Data.List.Count

/-! # Histories of calls

A history applies calls to a state one after the other. A relation between the
states around every call that is reflexive and transitive relates the first state
to every later one, and a measure that some calls raise by one counts those calls.
-/

namespace TrtShim.History

variable {σ : Type} {γ : Type 1}

/-- A call with the states before and after it. -/
structure Step (σ : Type) (γ : Type 1) where
  before : σ
  call : γ
  after : σ

variable (run : γ → σ → σ)

/-- The steps of a history. -/
def steps : List γ → σ → List (Step σ γ)
  | [], _ => []
  | c :: cs, s => ⟨s, c, run c s⟩ :: steps cs (run c s)

/-- The state after a history. -/
def final (cs : List γ) (s : σ) : σ := cs.foldl (fun s c => run c s) s

variable {run} {cs : List γ} {s : σ}

theorem after_eq_run {st : Step σ γ} (h : st ∈ steps run cs s) :
    st.after = run st.call st.before := by
  induction cs generalizing s with
  | nil => exact absurd h (List.not_mem_nil)
  | cons c cs ih =>
    rcases List.mem_cons.mp h with rfl | h
    · rfl
    · exact ih h

/-- What relates the states around every call relates the first state to every later one. -/
theorem rel_after {R : σ → σ → Prop} (hrefl : ∀ s, R s s)
    (htrans : ∀ s t u, R s t → R t u → R s u)
    (h : ∀ st ∈ steps run cs s, R st.before st.after) : ∀ st ∈ steps run cs s, R s st.after := by
  induction cs generalizing s with
  | nil => exact nofun
  | cons c cs ih =>
    rw [steps, List.forall_mem_cons] at h ⊢
    refine ⟨htrans _ _ _ (hrefl s) h.1, fun st hst => ?_⟩
    exact htrans _ _ _ h.1 (ih h.2 st hst)

/-- A measure that certain calls raise by one, and the others keep, counts those calls. -/
theorem measure_final (m : σ → ℕ) (p : Step σ γ → Bool)
    (h : ∀ st ∈ steps run cs s, m st.after = m st.before + if p st then 1 else 0) :
    m (final run cs s) = m s + (steps run cs s).countP p := by
  induction cs generalizing s with
  | nil => rfl
  | cons c cs ih =>
    rw [steps, List.forall_mem_cons] at h
    have hfinal : final run (c :: cs) s = final run cs (run c s) := rfl
    have hfirst : m (run c s) = m s + if p ⟨s, c, run c s⟩ then 1 else 0 := h.1
    rw [hfinal, ih h.2, hfirst, steps, List.countP_cons]
    omega

end TrtShim.History
