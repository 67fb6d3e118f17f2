import Mathlib.Logic.Function.Basic
import TrtShim.Backend.Engine
import TrtShim.Shim.Dims

/-! # Optimization profiles

A profile keeps the dimensions set last for each input and selector. The dynamic
axis is the first one, in the order of inputs and axes, at which the least and
the greatest dimensions differ. Nothing checks that they are in order.
-/

namespace TrtShim.Shim

open Std Backend

/-- `OptProfileSelector`. -/
inductive OptProfileSelector where
  | kMIN
  | kOPT
  | kMAX
  deriving DecidableEq

/-- The dimensions of one input, by selector. -/
abbrev Selected := OptProfileSelector → ValidDims

/-- What an input has before anything is set: no dimensions. -/
def unset : Selected := fun _ => ⟨{}, by decide⟩

structure ShimOptimizationProfile where
  dims : TreeMap Bytes Selected := ∅

/-- A call of `setDimensions`. -/
structure SetDimensions where
  name : Bytes
  sel : OptProfileSelector
  dims : ValidDims

/-- The first axis at which two dimensions differ. -/
def firstDiffering (mn mx : Dims) : Option ℕ :=
  (List.range (min mn.rank mx.rank)).find? fun a => mn.dim a ≠ mx.dim a

/-- What `dynamicAxis` reports for an axis of an input. -/
def axisAt (name : Bytes) (s : Selected) (a : ℕ) : DynamicAxis where
  input := name
  axis := Int32.ofNat a
  min := (s .kMIN).1.dim a
  opt := if a < (s .kOPT).1.rank then (s .kOPT).1.dim a else (s .kMIN).1.dim a
  max := (s .kMAX).1.dim a

namespace ShimOptimizationProfile

variable (p : ShimOptimizationProfile)

/-- The entry of an input, made when it is missing. -/
def entry (name : Bytes) : Selected := p.dims.getD name unset

/-- `setDimensions`. -/
def setDimensions (name : Bytes) (sel : OptProfileSelector) (dims : ValidDims) :
    ShimOptimizationProfile where
  dims := p.dims.insert name (Function.update (p.entry name) sel dims)

/-- `isValid`. -/
def isValid : Bool := !p.dims.isEmpty

/-- `dynamicAxis`. -/
def dynamicAxis : Option DynamicAxis :=
  p.dims.toList.findSome? fun kv =>
    (firstDiffering (kv.2 .kMIN).1 (kv.2 .kMAX).1).map (axisAt kv.1 kv.2)

/-- The profile after some calls. -/
def after (calls : List SetDimensions) : ShimOptimizationProfile :=
  calls.foldl (fun p c => p.setDimensions c.name c.sel c.dims) p

end ShimOptimizationProfile

/-! ## What a sequence of calls stands for -/

/-- The dimensions that a sequence of calls sets last for an input and a selector. -/
def latest (calls : List SetDimensions) (name : Bytes) : Selected := fun sel =>
  (Lists.lastValue (calls.map fun c => ((c.name, c.sel), c.dims)) (name, sel)).getD (unset sel)

/-- The least and the greatest dimensions of an input differ at an axis that both of them have. -/
def Differs (s : Selected) (a : ℕ) : Prop :=
  a < (s .kMIN).1.rank ∧ a < (s .kMAX).1.rank ∧ (s .kMIN).1.dim a ≠ (s .kMAX).1.dim a

/-- The first differing axis, with the inputs in byte order and the axes of one input ascending. -/
def LeastDiffering (s : Bytes → Selected) (name : Bytes) (a : ℕ) : Prop :=
  Differs (s name) a ∧
    ∀ name' a', Differs (s name') a' → name < name' ∨ name = name' ∧ a ≤ a'

section Axis

variable {mn mx : Dims} {s : Selected} {a : ℕ}

theorem firstDiffering_eq_some_iff : firstDiffering (s .kMIN).1 (s .kMAX).1 = some a ↔
    Differs s a ∧ ∀ b < a, ¬ Differs s b := by
  rw [firstDiffering, List.find?_range_eq_some]
  simp only [Differs, List.mem_range, Nat.lt_min, decide_eq_true_eq, Bool.not_eq_true',
    decide_eq_false_iff_not, not_not, not_and]
  constructor
  · rintro ⟨hne, ⟨hmn, hmx⟩, heq⟩
    exact ⟨⟨hmn, hmx, hne⟩, fun b hb _ _ => heq b hb⟩
  · rintro ⟨⟨hmn, hmx, hne⟩, heq⟩
    exact ⟨hne, ⟨hmn, hmx⟩, fun b hb =>
      heq b hb (Nat.lt_trans hb hmn) (Nat.lt_trans hb hmx)⟩

theorem firstDiffering_eq_none_iff :
    firstDiffering (s .kMIN).1 (s .kMAX).1 = none ↔ ∀ a, ¬ Differs s a := by
  rw [firstDiffering, List.find?_eq_none]
  simp only [Differs, List.mem_range, Nat.lt_min, decide_eq_true_eq, not_and, and_imp]

theorem not_differs_unset : ¬ Differs unset a := fun h => absurd h.1 (Nat.not_lt_zero a)

end Axis

namespace ShimOptimizationProfile

variable {p : ShimOptimizationProfile} {d : DynamicAxis} {name : Bytes} {s : Selected}

theorem entry_of_getElem? (h : p.dims[name]? = some s) : p.entry name = s := by
  rw [entry, TreeMap.getD_eq_getD_getElem?, h, Option.getD_some]

/-- An input with a differing axis has an entry. -/
theorem getElem?_of_differs {a : ℕ} (h : Differs (p.entry name) a) :
    p.dims[name]? = some (p.entry name) := by
  rcases hs : p.dims[name]? with _ | s
  · rw [entry, TreeMap.getD_eq_getD_getElem?, hs] at h
    exact absurd h not_differs_unset
  · rw [entry_of_getElem? hs]

/-- The axis found is the least one that differs. -/
theorem dynamicAxis_eq_some_iff : p.dynamicAxis = some d ↔
    ∃ name a, LeastDiffering p.entry name a ∧ d = axisAt name (p.entry name) a := by
  rw [dynamicAxis, OrderedMap.findSome?_toList_eq_some_iff
    (f := fun name s => (firstDiffering (s .kMIN).1 (s .kMAX).1).map (axisAt name s))]
  simp only [Option.map_eq_some_iff, Option.map_eq_none_iff, firstDiffering_eq_some_iff,
    firstDiffering_eq_none_iff]
  constructor
  · rintro ⟨name, s, hs, ⟨a, ⟨hdiff, hfirst⟩, rfl⟩, hbelow⟩
    obtain rfl := entry_of_getElem? hs
    refine ⟨name, a, ⟨hdiff, fun name' a' h => ?_⟩, rfl⟩
    rcases hc : compare name' name
    · exact absurd h (hbelow name' _ (getElem?_of_differs h) hc a')
    · obtain rfl := LawfulEqCmp.compare_eq_iff_eq.mp hc
      exact .inr ⟨rfl, Nat.le_of_not_lt fun hlt => hfirst a' hlt h⟩
    · exact .inl (OrderedMap.compare_list_eq_lt.mp (OrientedCmp.gt_iff_lt.mp hc))
  · rintro ⟨name, a, ⟨hdiff, hleast⟩, rfl⟩
    refine ⟨name, p.entry name, getElem?_of_differs hdiff, ⟨a, ⟨hdiff, ?_⟩, rfl⟩, ?_⟩
    · intro b hb h
      rcases hleast name b h with hlt | ⟨-, hle⟩
      · exact absurd hlt (List.lt_irrefl name)
      · omega
    · intro name' s' hs' hc a' h
      obtain rfl := entry_of_getElem? hs'
      have hlt := OrderedMap.compare_list_eq_lt.mp hc
      rcases hleast name' a' h with hgt | ⟨rfl, -⟩
      · exact absurd (List.lt_trans hlt hgt) (List.lt_irrefl name')
      · exact absurd hlt (List.lt_irrefl name)

theorem dynamicAxis_eq_none_iff :
    p.dynamicAxis = none ↔ ∀ name a, ¬ Differs (p.entry name) a := by
  rw [dynamicAxis, OrderedMap.findSome?_toList_eq_none_iff
    (f := fun name s => (firstDiffering (s .kMIN).1 (s .kMAX).1).map (axisAt name s))]
  simp only [Option.map_eq_none_iff, firstDiffering_eq_none_iff]
  constructor
  · exact fun h name a hdiff => h name _ (getElem?_of_differs hdiff) a hdiff
  · intro h name s hs
    exact entry_of_getElem? hs ▸ h name

theorem entry_setDimensions (p : ShimOptimizationProfile) (name : Bytes)
    (sel : OptProfileSelector) (dims : ValidDims) (name' : Bytes) :
    (p.setDimensions name sel dims).entry name' =
      if name = name' then Function.update (p.entry name') sel dims else p.entry name' := by
  rw [entry, setDimensions, TreeMap.getD_insert]
  by_cases h : name = name'
  · rw [if_pos (LawfulEqCmp.compare_eq_iff_eq.mpr h), if_pos h, h]
  · rw [if_neg (mt LawfulEqCmp.compare_eq_iff_eq.mp h), if_neg h]
    rfl

/-- A profile keeps the dimensions set last. -/
theorem entry_after (calls : List SetDimensions) : (after {} calls).entry = latest calls := by
  induction calls using List.reverseRecOn with
  | nil => rfl
  | append_singleton calls c ih =>
    have hstep : after {} (calls ++ [c]) = (after {} calls).setDimensions c.name c.sel c.dims :=
      List.foldl_append
    funext name sel
    rw [hstep, entry_setDimensions, ih, latest, List.map_append, List.map_singleton,
      Lists.lastValue_concat]
    by_cases hname : c.name = name
    · rw [if_pos hname]
      by_cases hsel : sel = c.sel
      · rw [hsel, Function.update_self, if_pos (by rw [hname]), Option.getD_some]
      · rw [Function.update_of_ne hsel, if_neg fun h => hsel (Prod.mk.inj h).2.symm]
        rfl
    · rw [if_neg hname, if_neg fun h => hname (Prod.mk.inj h).1]
      rfl

theorem isValid_of_dynamicAxis (h : p.dynamicAxis = some d) : p.isValid = true := by
  obtain ⟨name, a, ⟨hdiff, -⟩, -⟩ := dynamicAxis_eq_some_iff.mp h
  have hmem : name ∈ p.dims := OrderedMap.mem_iff_exists.mpr ⟨_, getElem?_of_differs hdiff⟩
  rw [isValid, TreeMap.isEmpty_eq_false_of_contains (TreeMap.mem_iff_contains.mp hmem)]
  rfl

end ShimOptimizationProfile

open ShimOptimizationProfile

/-- After any calls of `setDimensions`, `dynamicAxis` finds an axis exactly if the least and the
greatest dimensions set last for some input differ. It is the first such axis, with the dimensions
set last at it, and the order of the calls makes no other difference. -/
theorem dynamicAxis_latest (calls : List SetDimensions) :
    ((after {} calls).dynamicAxis.isSome ↔ ∃ name a, Differs (latest calls name) a) ∧
    (∀ d, (after {} calls).dynamicAxis = some d ↔
      ∃ name a, LeastDiffering (latest calls) name a ∧ d = axisAt name (latest calls name) a) ∧
    ∀ calls', latest calls' = latest calls →
      (after {} calls').dynamicAxis = (after {} calls).dynamicAxis := by
  have hsome (calls : List SetDimensions) (d : DynamicAxis) :=
    entry_after calls ▸ dynamicAxis_eq_some_iff (p := after {} calls) (d := d)
  refine ⟨?_, hsome calls, ?_⟩
  · rw [← not_iff_not, Option.not_isSome_iff_eq_none, dynamicAxis_eq_none_iff,
      entry_after]
    simp only [not_exists]
  · intro calls' h
    ext d
    rw [hsome, hsome, h]

/-- The bounds of a dynamic axis are in order, and converting them to `size_t` keeps them. -/
structure InRange (d : DynamicAxis) : Prop where
  min_nonneg : 0 ≤ d.min
  min_le_opt : d.min ≤ d.opt
  opt_le_max : d.opt ≤ d.max
  kept : ∀ v ∈ [d.min, d.opt, d.max], (v.toUInt64.toNat : ℤ) = v.toInt

theorem toUInt64_of_nonneg {v : Int64} (h : 0 ≤ v) : (v.toUInt64.toNat : ℤ) = v.toInt := by
  rw [Int64.le_iff_toInt_le] at h
  change 0 ≤ v.toBitVec.toInt at h
  change (v.toBitVec.toNat : ℤ) = v.toBitVec.toInt
  have hlt := v.toBitVec.isLt
  rw [BitVec.toInt] at h ⊢
  split at h
  next => rw [if_pos ‹_›]
  next => omega

theorem inRange_iff {d : DynamicAxis} : InRange d ↔ 0 ≤ d.min ∧ d.min ≤ d.opt ∧ d.opt ≤ d.max := by
  constructor
  · exact fun h => ⟨h.min_nonneg, h.min_le_opt, h.opt_le_max⟩
  · rintro ⟨hmin, hopt, hmax⟩
    refine ⟨hmin, hopt, hmax, fun v hv => toUInt64_of_nonneg ?_⟩
    simp only [List.mem_cons, List.not_mem_nil, or_false] at hv
    rcases hv with rfl | rfl | rfl
    · exact hmin
    · exact Int64.le_trans hmin hopt
    · exact Int64.le_trans hmin (Int64.le_trans hopt hmax)

/-- After any calls of `setDimensions`, a valid profile yields only bounds in range exactly if those
set last at the first differing axis are: the least dimension is not negative, and it, the optimal
one if there is one, and the greatest one are in order. -/
theorem dynamicAxis_inRange_iff (calls : List SetDimensions) :
    (∀ d, (after {} calls).isValid = true → (after {} calls).dynamicAxis = some d → InRange d) ↔
    ∀ name a, LeastDiffering (latest calls) name a →
      0 ≤ (latest calls name .kMIN).1.dim a ∧
      (latest calls name .kMIN).1.dim a ≤ (latest calls name .kMAX).1.dim a ∧
      (a < (latest calls name .kOPT).1.rank →
        (latest calls name .kMIN).1.dim a ≤ (latest calls name .kOPT).1.dim a ∧
        (latest calls name .kOPT).1.dim a ≤ (latest calls name .kMAX).1.dim a) := by
  have hrange (name : Bytes) (a : ℕ) : InRange (axisAt name (latest calls name) a) ↔
      0 ≤ (latest calls name .kMIN).1.dim a ∧
      (latest calls name .kMIN).1.dim a ≤ (latest calls name .kMAX).1.dim a ∧
      (a < (latest calls name .kOPT).1.rank →
        (latest calls name .kMIN).1.dim a ≤ (latest calls name .kOPT).1.dim a ∧
        (latest calls name .kOPT).1.dim a ≤ (latest calls name .kMAX).1.dim a) := by
    rw [inRange_iff, axisAt]
    apply and_congr_right
    intro _
    split
    next ha =>
      constructor
      · exact fun h => ⟨Int64.le_trans h.1 h.2, fun _ => h⟩
      · exact fun h => h.2 ha
    next ha =>
      constructor
      · exact fun h => ⟨h.2, fun h' => absurd h' ha⟩
      · exact fun h => ⟨Int64.le_refl _, h.1⟩
  have hsome (d : DynamicAxis) :=
    entry_after calls ▸ dynamicAxis_eq_some_iff (p := after {} calls) (d := d)
  constructor
  · intro h name a hleast
    have hd := (hsome _).mpr ⟨name, a, hleast, rfl⟩
    exact (hrange name a).mp (h _ (isValid_of_dynamicAxis hd) hd)
  · intro h d _ hd
    obtain ⟨name, a, hleast, rfl⟩ := (hsome d).mp hd
    exact (hrange name a).mpr (h name a hleast)

/-- The least dimension is above the greatest, which converts to a huge bound. -/
theorem dynamicAxis_not_inRange :
    let calls : List SetDimensions := [⟨text "x", .kMAX, ⟨toDims [-1], by decide⟩⟩,
      ⟨text "x", .kMIN, ⟨toDims [4], by decide⟩⟩]
    (after {} calls).isValid = true ∧ ∃ d, (after {} calls).dynamicAxis = some d ∧
      d.min = 4 ∧ d.opt = 4 ∧ d.max = -1 ∧ d.max.toUInt64 = 18446744073709551615 ∧ ¬ InRange d := by
  intro calls
  refine ⟨by decide +kernel, _, rfl, by decide +kernel, by decide +kernel, by decide +kernel,
    by decide +kernel, fun h => absurd h.opt_le_max (by decide +kernel)⟩

end TrtShim.Shim
