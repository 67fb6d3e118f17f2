import Mathlib.Data.List.Induction
import Mathlib.Data.List.Nodup
import Mathlib.Data.List.Perm.Subperm
import Mathlib.Data.Nat.Notation

/-! # Lists

A loop that may give up at any entry of a list, the value written last under a
key, entries kept under distinct keys, and increasing lists of indices without a gap.
-/

namespace TrtShim.Lists

section Collect

variable {α β : Type} {f : α → Option β} {l : List α} {r : List β}

/-- A loop that collects values goes through exactly when every entry yields the value at its
place. -/
theorem mapM_eq_some_iff : l.mapM f = some r ↔ l.map f = r.map some := by
  induction l generalizing r with
  | nil => cases r <;> simp
  | cons a l ih =>
    simp only [List.mapM_cons, Option.pure_def, Option.bind_eq_bind, Option.bind_eq_some_iff, ih]
    cases r with
    | nil => simp
    | cons b r => simp [and_comm]

theorem isSome_mapM_iff : (l.mapM f).isSome ↔ ∀ a ∈ l, (f a).isSome := by
  induction l with
  | nil => simp
  | cons a l ih =>
    rw [List.mapM_cons, List.forall_mem_cons, ← ih]
    cases f a <;> cases l.mapM f <;> simp

theorem mapM_congr {g : α → Option β} (h : ∀ a ∈ l, f a = g a) : l.mapM f = l.mapM g := by
  induction l with
  | nil => rfl
  | cons a l ih =>
    rw [List.forall_mem_cons] at h
    rw [List.mapM_cons, List.mapM_cons, h.1, ih h.2]

theorem exists_of_mapM_eq_some (h : l.mapM f = some r) {a : α} (ha : a ∈ l) :
    ∃ b ∈ r, f a = some b := by
  have hm : f a ∈ r.map some := mapM_eq_some_iff.mp h ▸ List.mem_map_of_mem ha
  obtain ⟨b, hb, he⟩ := List.mem_map.mp hm
  exact ⟨b, hb, he.symm⟩

/-- Entries that keep a key are collected under the keys of the list. -/
theorem map_eq_of_mapM_eq_some {γ : Type} {g : β → γ} {key : α → γ} (h : l.mapM f = some r)
    (hf : ∀ a b, f a = some b → g b = key a) : r.map g = l.map key := by
  rw [mapM_eq_some_iff] at h
  induction l generalizing r with
  | nil => simp_all
  | cons a l ih =>
    cases r with
    | nil => simp at h
    | cons b r =>
      rw [List.map_cons, List.map_cons, List.cons.injEq] at h
      rw [List.map_cons, List.map_cons, hf a b h.1, ih h.2]

/-- What is made of the values collected is made of the entries one by one. -/
theorem filterMap_of_mapM {γ : Type} (h : l.mapM f = some r) (g : β → Option γ) :
    r.filterMap g = l.filterMap fun a => (f a).bind g := by
  have hmap := congrArg (List.filterMap fun b => b.bind g) (mapM_eq_some_iff.mp h)
  rw [List.filterMap_map, List.filterMap_map] at hmap
  exact hmap.symm

end Collect

/-- A loop that collects values without an exception. -/
theorem mapM_ok {ε α β : Type} {f : α → Except ε β} {g : α → β} {l : List α}
    (h : ∀ a ∈ l, f a = .ok (g a)) : l.mapM f = .ok (l.map g) := by
  induction l with
  | nil => rfl
  | cons a l ih =>
    obtain ⟨ha, hl⟩ := List.forall_mem_cons.mp h
    rw [List.mapM_cons, ha, ih hl]
    rfl

/-- A loop that stops with the first exception. -/
theorem mapM_first {ε α β : Type} {f : α → Except ε β} {bad : α → Option ε} {g : α → β}
    {l : List α} (hbad : ∀ a e, bad a = some e → f a = .error e)
    (hok : ∀ a, bad a = none → f a = .ok (g a)) :
    l.mapM f = (l.findSome? bad).elim (.ok (l.map g)) .error := by
  induction l with
  | nil => rfl
  | cons a l ih =>
    rw [List.mapM_cons, List.findSome?_cons]
    rcases ha : bad a with _ | e
    · rw [hok a ha, ih]
      rcases l.findSome? bad with _ | e
      · rfl
      · rfl
    · rw [hbad a e ha]
      rfl

/-- The pairs of the entries at the same indices. -/
theorem filterMap_range_zip {α β : Type} (l : List α) (r : List β) :
    ((List.range l.length).filterMap fun k =>
      (l[k]?).bind fun a => (r[k]?).map fun b => (a, b)) = l.zip r := by
  induction l generalizing r with
  | nil => rfl
  | cons a l ih =>
    rw [List.length_cons, List.range_succ_eq_map, List.filterMap_cons, List.filterMap_map]
    cases r with
    | nil =>
      rw [List.zip_nil_right]
      exact List.filterMap_eq_nil_iff.mpr fun k _ => by simp
    | cons b r => exact congrArg (List.cons (a, b)) (ih r)

section Split

variable {α : Type} {p : α → Prop} {x x' z z' : List α} {a a' : α}

/-- A list has one first element of a kind. -/
theorem split_first (hx : ∀ b ∈ x, ¬ p b) (hx' : ∀ b ∈ x', ¬ p b) (ha : p a) (ha' : p a')
    (h : x ++ a :: z = x' ++ a' :: z') : x = x' ∧ a = a' ∧ z = z' := by
  induction x generalizing x' with
  | nil =>
    rcases x' with _ | ⟨b, x'⟩
    · exact ⟨rfl, List.cons.inj h⟩
    · exact absurd ((List.cons.inj h).1 ▸ ha) (hx' b List.mem_cons_self)
  | cons b x ih =>
    obtain ⟨hb, hx⟩ := List.forall_mem_cons.mp hx
    rcases x' with _ | ⟨b', x'⟩
    · exact absurd ((List.cons.inj h).1 ▸ ha') hb
    · obtain ⟨rfl, htail⟩ := List.cons.inj h
      obtain ⟨rfl, hrest⟩ := ih hx (fun c hc => hx' c (List.mem_cons_of_mem _ hc)) htail
      exact ⟨rfl, hrest⟩

/-- A list has one last element of a kind. -/
theorem split_last (hz : ∀ b ∈ z, ¬ p b) (hz' : ∀ b ∈ z', ¬ p b) (ha : p a) (ha' : p a')
    (h : x ++ a :: z = x' ++ a' :: z') : x = x' ∧ a = a' ∧ z = z' := by
  have hreverse : z.reverse ++ a :: x.reverse = z'.reverse ++ a' :: x'.reverse := by
    simpa using congrArg List.reverse h
  obtain ⟨hz, ha, hx⟩ := split_first (fun b hb => hz b (List.mem_reverse.mp hb))
    (fun b hb => hz' b (List.mem_reverse.mp hb)) ha ha' hreverse
  exact ⟨List.reverse_injective hx, ha, List.reverse_injective hz⟩

end Split

/-- What every step of a fold keeps holds where the fold ends. -/
theorem foldlM_invariant {α σ : Type} {step : σ → α → Option σ} {I : σ → Prop} {l : List α}
    {s s' : σ} (hs : I s) (hstep : ∀ s a s', I s → step s a = some s' → I s')
    (h : l.foldlM step s = some s') : I s' := by
  induction l generalizing s with
  | nil => exact Option.some.inj h ▸ hs
  | cons a l ih =>
    rw [List.foldlM_cons] at h
    obtain ⟨s'', hfirst, hrest⟩ := Option.bind_eq_some_iff.mp h
    exact ih (hstep s a s'' hs hfirst) hrest

section Writes

variable {α β : Type} [DecidableEq α] {l : List (α × β)} {k : α}

/-- The value that a list of writes leaves under a key. -/
def lastValue (l : List (α × β)) (k : α) : Option β :=
  l.reverse.findSome? fun p => if p.1 = k then some p.2 else none

theorem lastValue_concat (l : List (α × β)) (p : α × β) (k : α) :
    lastValue (l ++ [p]) k = if p.1 = k then some p.2 else lastValue l k := by
  rw [lastValue, List.reverse_append, List.reverse_singleton, List.singleton_append,
    List.findSome?_cons]
  split
  next v hv =>
    split at hv
    next hk => rw [if_pos hk, ← hv]
    next => exact absurd hv (by simp)
  next hv =>
    split at hv
    next => exact absurd hv (by simp)
    next hk => rw [if_neg hk, lastValue]

theorem lastValue_eq_none_iff : lastValue l k = none ↔ k ∉ l.map Prod.fst := by
  simp only [lastValue, List.findSome?_eq_none_iff, List.mem_reverse, ite_eq_right_iff,
    List.mem_map, not_exists, not_and, reduceCtorEq, imp_false]

theorem mem_of_lastValue {v : β} (h : lastValue l k = some v) : (k, v) ∈ l := by
  obtain ⟨p, hp, hv⟩ := List.exists_of_findSome?_eq_some h
  rw [List.mem_reverse] at hp
  split at hv
  next hk =>
    obtain rfl := Option.some.inj hv
    exact hk ▸ hp
  next => exact absurd hv (by simp)

/-- A value that is written under a key is left there if no other value is. -/
theorem lastValue_eq_some {v : β} (h : (k, v) ∈ l) (huniq : ∀ v', (k, v') ∈ l → v' = v) :
    lastValue l k = some v := by
  rcases hv : lastValue l k with _ | v'
  · exact absurd (List.mem_map_of_mem h) (lastValue_eq_none_iff.mp hv)
  · rw [huniq v' (mem_of_lastValue hv)]

/-- A loop over writes that keeps what was written under a key. -/
theorem foldl_eq_lastValue {γ : Type} (f : β → γ) (l : List (α × β)) (k : α) (init : γ) :
    l.foldl (fun acc p => if p.1 = k then f p.2 else acc) init =
      ((lastValue l k).map f).getD init := by
  induction l using List.reverseRecOn with
  | nil => rfl
  | append_singleton l p ih =>
    rw [List.foldl_append, List.foldl_cons, List.foldl_nil, lastValue_concat, ih]
    split
    next => rfl
    next => rfl

end Writes

/-- Entries with distinct keys stay so when each one kept has a key of its own. -/
theorem nodup_filterMap_keys {α β γ δ : Type} {f : α × γ → Option (β × δ)} {g : β → α}
    {l : List (α × γ)} (hf : ∀ p q, f p = some q → p.1 = g q.1) (h : (l.map Prod.fst).Nodup) :
    ((l.filterMap f).map Prod.fst).Nodup := by
  refine List.pairwise_map.mpr (List.Pairwise.filterMap f ?_ (List.pairwise_map.mp h))
  intro p p' hne q hq q' hq' he
  exact hne (by rw [hf p q hq, hf p' q' hq', he])

section Indices

/-- Increasing indices below their number are all the indices from zero on. -/
theorem eq_range_of_pairwise_lt {ks : List ℕ} (hs : ks.Pairwise (· < ·))
    (hlt : ∀ k ∈ ks, k < ks.length) : ks = List.range ks.length := by
  have hn : ks.Nodup := hs.imp Nat.ne_of_lt
  have hsub : ks ⊆ List.range ks.length := fun k hk => List.mem_range.mpr (hlt k hk)
  have hp : ks.Perm (List.range ks.length) :=
    (List.subperm_of_subset hn hsub).perm_of_length_le (by simp)
  refine hp.eq_of_pairwise (fun a b _ _ hab hba => ?_) hs List.pairwise_lt_range
  omega

/-- In a list of entries with increasing indices below their number, every entry stands at its
index. -/
theorem getElem?_of_pairwise_lt {α : Type} {l : List (ℕ × α)}
    (hs : l.Pairwise fun a b => a.1 < b.1) (hlt : ∀ p ∈ l, p.1 < l.length) {k : ℕ} {a : α}
    (hm : (k, a) ∈ l) : l[k]? = some (k, a) := by
  have hr : l.map Prod.fst = List.range l.length := by
    have h := eq_range_of_pairwise_lt (List.pairwise_map.mpr hs) (by simpa using hlt)
    rwa [List.length_map] at h
  obtain ⟨i, hi, he⟩ := List.getElem_of_mem hm
  have hk : (l.map Prod.fst)[i]? = some k := by simp [hi, he]
  rw [hr, List.getElem?_range hi] at hk
  rw [← Option.some.inj hk, List.getElem?_eq_getElem hi, he, Option.some.inj hk]

end Indices

end TrtShim.Lists
