import Mathlib.Data.List.Basic
import TrtShim.Text.Brackets
import TrtShim.Text.Strings

/-! # Default arguments in the generated stubs

The stub generator copies the parameters of a declaration without their default
arguments. Its scanner counts the nesting depth in a loop that copies and in a
loop that skips; the depth is zero whenever one hands over to the other.
-/

namespace TrtShim.Tools

open Brackets

/-- The brackets that `strip_defaults` counts. -/
def brackets : List (Char × Char) := [('(', ')'), ('[', ']'), ('{', '}')]

/-- The loops of `strip_defaults` on the rest of the text. The inner one, which skips an
initializer, leaves the comma that ends it to the outer one. -/
def stripLoop : Bool → ℤ → Str → Str
  | _, _, [] => []
  | skipping, depth, c :: cs =>
    if skipping ∧ ¬ (c = ',' ∧ depth = 0) then stripLoop true (depth + delta brackets c) cs
    else if c = '=' ∧ depth + delta brackets c = 0 then
      stripLoop true (depth + delta brackets c) cs
    else c :: stripLoop false (depth + delta brackets c) cs

/-- `strip_defaults`. -/
def stripDefaults (args : Str) : Str := stripLoop false 0 args

/-- A parameter: a balanced declaration without `=` at depth zero, and perhaps a balanced
initializer without a comma at depth zero. -/
structure Parameter where
  decl : Str
  init : Option Str
  decl_balanced : balanced brackets (· ≠ '=') [] decl = true
  init_balanced : ∀ i ∈ init, balanced brackets (· ≠ ',') [] i = true

namespace Parameter

variable (p : Parameter)

/-- The parameter as it is written. -/
def text : Str := p.decl ++ match p.init with
  | some i => [' ', '=', ' '] ++ i
  | none => []

/-- The parameter without its initializer, up to the blank before the `=`. -/
def stripped : Str := p.decl ++ if p.init.isSome then [' '] else []

end Parameter

/-- A list of parameters is joined by `", "`. -/
def joined (params : List Str) : Str := [',', ' '].intercalate params

section Loop

variable {depth : ℤ} {c : Char} (cs : Str)

theorem stripLoop_copy (h : ¬ (c = '=' ∧ depth + delta brackets c = 0)) :
    stripLoop false depth (c :: cs) = c :: stripLoop false (depth + delta brackets c) cs := by
  rw [stripLoop, if_neg (by simp), if_neg h]

theorem stripLoop_skip (h : ¬ (c = ',' ∧ depth = 0)) :
    stripLoop true depth (c :: cs) = stripLoop true (depth + delta brackets c) cs := by
  rw [stripLoop, if_pos ⟨rfl, h⟩]

theorem stripLoop_eq : stripLoop false 0 ('=' :: cs) = stripLoop true 0 cs := by
  simp [stripLoop, delta, brackets]

/-- At the end of an initializer the two loops agree. -/
theorem stripLoop_comma (skipping : Bool) :
    stripLoop skipping 0 (',' :: cs) = ',' :: stripLoop false 0 cs := by
  simp [stripLoop, delta, brackets]

end Loop

section Parameters

variable {s : Str}

/-- A declaration is copied. -/
theorem stripLoop_decl (h : balanced brackets (· ≠ '=') [] s = true) (rest : Str) :
    stripLoop false 0 (s ++ rest) = s ++ stripLoop false 0 rest := by
  have hcopy (d : ℕ) (c : Char) (cs : Str) (htop : d = 0 → (c ≠ '=' : Bool) = true) :
      stripLoop false d (c :: cs) = c :: stripLoop false (d + delta brackets c) cs := by
    apply stripLoop_copy
    rintro ⟨rfl, hdepth⟩
    have hzero : delta brackets '=' = 0 := rfl
    exact absurd (htop (by omega)) (by simp)
  rw [scan_balanced hcopy h rest, List.foldr_cons_eq_append']

/-- An initializer is skipped. -/
theorem stripLoop_init (h : balanced brackets (· ≠ ',') [] s = true) (rest : Str) :
    stripLoop true 0 (s ++ rest) = stripLoop true 0 rest := by
  have hskip (d : ℕ) (c : Char) (cs : Str) (htop : d = 0 → (c ≠ ',' : Bool) = true) :
      stripLoop true d (c :: cs) = stripLoop true (d + delta brackets c) cs := by
    apply stripLoop_skip
    rintro ⟨rfl, hdepth⟩
    exact absurd (htop (by omega)) (by simp)
  rw [scan_balanced (g := fun _ out => out) hskip h rest, List.foldr_fixed]

/-- A parameter loses its initializer where the text ends or a comma follows. -/
theorem stripLoop_text (p : Parameter) {rest : Str}
    (hrest : stripLoop true 0 rest = stripLoop false 0 rest) :
    stripLoop false 0 (p.text ++ rest) = p.stripped ++ stripLoop false 0 rest := by
  rw [Parameter.text, Parameter.stripped, List.append_assoc, stripLoop_decl p.decl_balanced,
    List.append_assoc]
  rcases hinit : p.init with _ | i
  · rfl
  · have hbalanced := p.init_balanced i hinit
    change p.decl ++ stripLoop false 0 (' ' :: '=' :: ' ' :: (i ++ rest)) = _
    rw [stripLoop_copy _ (by decide)]
    change p.decl ++ ' ' :: stripLoop false 0 ('=' :: ' ' :: (i ++ rest)) = _
    rw [stripLoop_eq, stripLoop_skip _ (by decide)]
    change p.decl ++ ' ' :: stripLoop true 0 (i ++ rest) = _
    rw [stripLoop_init hbalanced, hrest]
    rfl

theorem joined_cons_cons (t t' : Str) (ts : List Str) :
    joined (t :: t' :: ts) = t ++ ',' :: ' ' :: joined (t' :: ts) := by
  rw [joined, List.intercalate_cons_cons, List.append_assoc]
  rfl

theorem stripLoop_joined (params : List Parameter) :
    stripLoop false 0 (joined (params.map Parameter.text)) =
      joined (params.map Parameter.stripped) := by
  induction params with
  | nil => rfl
  | cons p params ih =>
    cases params with
    | nil =>
      have hend : stripLoop true 0 [] = stripLoop false 0 [] := rfl
      have hlast := stripLoop_text p hend
      rw [List.append_nil, stripLoop, List.append_nil] at hlast
      simpa [joined] using hlast
    | cons q params =>
      have hcomma (cs : Str) : stripLoop true 0 (',' :: cs) = stripLoop false 0 (',' :: cs) := by
        rw [stripLoop_comma, stripLoop_comma]
      simp only [List.map_cons, joined_cons_cons] at ih ⊢
      rw [stripLoop_text p (hcomma _), stripLoop_comma, stripLoop_copy _ (by decide)]
      exact congrArg (fun t => p.stripped ++ ',' :: ' ' :: t) ih

end Parameters

/-- What the loops write has no `=` at depth zero, and what they skip leaves the depth at zero, so
a second run copies it. -/
theorem stripLoop_stripLoop (s : Str) :
    (∀ depth, stripLoop false depth (stripLoop false depth s) = stripLoop false depth s) ∧
      ∀ depth, stripLoop false 0 (stripLoop true depth s) = stripLoop true depth s := by
  induction s with
  | nil => exact ⟨fun _ => rfl, fun _ => rfl⟩
  | cons c cs ih =>
    obtain ⟨hcopied, hskipped⟩ := ih
    constructor
    · intro depth
      by_cases hinit : c = '=' ∧ depth + delta brackets c = 0
      · obtain ⟨rfl, hdepth⟩ := hinit
        have hzero : delta brackets '=' = 0 := rfl
        obtain rfl : depth = 0 := by omega
        rw [stripLoop_eq, hskipped]
      · rw [stripLoop_copy cs hinit, stripLoop_copy _ hinit, hcopied]
    · intro depth
      by_cases hend : c = ',' ∧ depth = 0
      · obtain ⟨rfl, rfl⟩ := hend
        rw [stripLoop_comma, stripLoop_comma, hcopied]
      · rw [stripLoop_skip cs hend, hskipped]

/-- Exactly the initializers of a list of parameters are removed, and removing them again changes
no text, balanced or not. -/
theorem stripDefaults_removes :
    (∀ params : List Parameter, stripDefaults (joined (params.map Parameter.text)) =
      joined (params.map Parameter.stripped)) ∧
    ∀ s, stripDefaults (stripDefaults s) = stripDefaults s :=
  ⟨stripLoop_joined, fun s => (stripLoop_stripLoop s).1 0⟩

example : stripDefaults (str "f<a, b> x = g(1, c = 2), T y") = str "f<a, b> x , T y" := by decide

end TrtShim.Tools
