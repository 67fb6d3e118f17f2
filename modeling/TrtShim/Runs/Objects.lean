import Mathlib.Data.List.Basic
import Mathlib.Data.List.Induction
import Mathlib.Logic.Function.Basic

/-! # Many objects

A client creates objects and calls them in any order. What an object has become
depends on its own calls since it was created, however the calls of other objects
lie between them.
-/

namespace TrtShim.Objects

/-- An object is created, or it is called. -/
inductive Event (κ : Type*) where
  | create
  | call (c : κ)

variable {ι κ σ : Type*} [DecidableEq ι] (init : σ) (run : σ → κ → σ)

/-- The object after an event. -/
def Event.apply : Event κ → σ → σ
  | create, _ => init
  | call c, s => run s c

/-- The objects after an event of one of them. -/
def step (objects : ι → σ) (e : ι × Event κ) : ι → σ :=
  Function.update objects e.1 (e.2.apply init run (objects e.1))

/-- The calls of an object after one more event. -/
def extend (i : ι) (calls : List κ) (e : ι × Event κ) : List κ :=
  if e.1 = i then e.2.apply [] (fun calls c => calls ++ [c]) calls else calls

/-- The calls of an object since it was created. -/
def callsOn (i : ι) (events : List (ι × Event κ)) : List κ := events.foldl (extend i) []

variable {init run} {i : ι} {events : List (ι × Event κ)}

/-- An object is what its own calls have made of it. -/
theorem foldl_step : events.foldl (step init run) (fun _ => init) i =
    (callsOn i events).foldl run init := by
  induction events using List.reverseRecOn with
  | nil => rfl
  | append_singleton events e ih =>
    rw [callsOn, List.foldl_concat, List.foldl_concat, ← callsOn, extend, step]
    obtain ⟨j, e⟩ := e
    by_cases hj : j = i
    · subst hj
      rw [if_pos rfl, Function.update_self, ih]
      cases e with
      | create => rfl
      | call c => exact List.foldl_concat .. |>.symm
    · rw [if_neg hj, Function.update_of_ne (Ne.symm hj), ih]

/-- Events of other objects leave an object as it is. -/
theorem foldl_step_of_ne {objects : ι → σ} (h : ∀ e ∈ events, e.1 ≠ i) :
    events.foldl (step init run) objects i = objects i := by
  induction events generalizing objects with
  | nil => rfl
  | cons e events ih =>
    rw [List.forall_mem_cons] at h
    rw [List.foldl_cons, ih h.2, step, Function.update_of_ne h.1.symm]

variable {α γ ε : Type*} {next : α → γ → Option α} {part : α → σ} {view : γ → Option ε}
  {f : σ → ε → σ} {s t : α} {calls : List γ}

/-- The part of a state that a call leaves, in terms of what the part sees of the call. -/
def Follows (next : α → γ → Option α) (part : α → σ) (view : γ → Option ε) (f : σ → ε → σ) :
    Prop :=
  ∀ s c t, next s c = some t → part t = (view c).elim (part s) (f (part s))

/-- A part that follows every call follows a run. -/
theorem Follows.foldlM (h : Follows next part view f) (hrun : calls.foldlM next s = some t) :
    part t = (calls.filterMap view).foldl f (part s) := by
  induction calls generalizing s with
  | nil => rw [← Option.some.inj hrun]; rfl
  | cons c calls ih =>
    rw [List.foldlM_cons] at hrun
    obtain ⟨s', hnext, hrun⟩ := Option.bind_eq_some_iff.mp hrun
    rw [ih hrun, h s c s' hnext]
    cases hview : view c with
    | none => rw [List.filterMap_cons_none hview]; rfl
    | some e => rw [List.filterMap_cons_some hview]; rfl

end TrtShim.Objects
