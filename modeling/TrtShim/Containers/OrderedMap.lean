import Mathlib.Data.List.Induction
import Std.Data.TreeMap.Lemmas
import TrtShim.Containers.Lists

/-! # Ordered maps filled in a loop

A map filled by inserting the pairs of a list one after the other holds the value
inserted last under each key. It lists the pairs in the order of their keys,
whatever the order of the insertions was.
-/

namespace TrtShim.OrderedMap

open Std

variable {α β : Type} [Ord α]

/-- Insert the pairs of a list, from left to right. -/
def fill (t : TreeMap α β) (l : List (α × β)) : TreeMap α β :=
  l.foldl (fun t p => t.insert p.1 p.2) t

theorem fill_eq_insertMany (t : TreeMap α β) (l : List (α × β)) : fill t l = t.insertMany l := by
  induction l generalizing t with
  | nil => rfl
  | cons p l ih => rw [TreeMap.insertMany_cons, ← ih]; rfl

theorem mem_iff_exists [TransOrd α] {t : TreeMap α β} {k : α} : k ∈ t ↔ ∃ v, t[k]? = some v := by
  rw [TreeMap.mem_iff_isSome_getElem?, Option.isSome_iff_exists]

variable [LawfulEqOrd α] {l l' : List (α × β)} {k : α} {v : β}

theorem pairwise_compare_of_nodup (h : (l.map Prod.fst).Nodup) :
    l.Pairwise fun a b => ¬ compare a.1 b.1 = .eq :=
  (List.pairwise_map.mp h).imp fun hne he => hne (LawfulEqOrd.eq_of_compare he)

variable [TransOrd α]

/-- A filled map holds what was inserted last under a key. -/
theorem getElem?_fill [DecidableEq α] (t : TreeMap α β) (l : List (α × β)) (k : α) :
    (fill t l)[k]? = (Lists.lastValue l k).or t[k]? := by
  induction l using List.reverseRecOn with
  | nil => rfl
  | append_singleton l p ih =>
    rw [fill, List.foldl_append, List.foldl_cons, List.foldl_nil, TreeMap.getElem?_insert,
      Lists.lastValue_concat]
    by_cases hk : p.1 = k
    · rw [if_pos (LawfulEqCmp.compare_eq_iff_eq.mpr hk), if_pos hk, Option.some_or]
    · rw [if_neg (mt LawfulEqCmp.compare_eq_iff_eq.mp hk), if_neg hk]
      exact ih

/-- Under the keys inserted, what the map held before makes no difference. -/
theorem getElem?_fill_congr [DecidableEq α] (t t' : TreeMap α β) (h : k ∈ l.map Prod.fst) :
    (fill t l)[k]? = (fill t' l)[k]? := by
  have hne : Lists.lastValue l k ≠ none := mt Lists.lastValue_eq_none_iff.mp (not_not.mpr h)
  obtain ⟨v, hv⟩ := Option.ne_none_iff_exists'.mp hne
  rw [getElem?_fill, getElem?_fill, hv, Option.some_or, Option.some_or]

theorem getElem?_fill_of_mem (h : (l.map Prod.fst).Nodup) (hm : (k, v) ∈ l) (t : TreeMap α β) :
    (fill t l)[k]? = some v := by
  classical
  rw [fill_eq_insertMany]
  exact TreeMap.getElem?_insertMany_list_of_mem ReflCmp.compare_self
    (pairwise_compare_of_nodup h) hm

theorem getElem?_fill_of_not_mem (h : k ∉ l.map Prod.fst) (t : TreeMap α β) :
    (fill t l)[k]? = t[k]? := by
  classical
  rw [fill_eq_insertMany]
  exact TreeMap.getElem?_insertMany_list_of_contains_eq_false (by simpa using h)

theorem getElem?_fill_iff (h : (l.map Prod.fst).Nodup) :
    (fill (∅ : TreeMap α β) l)[k]? = some v ↔ (k, v) ∈ l := by
  constructor
  · intro hv
    by_cases hk : k ∈ l.map Prod.fst
    · obtain ⟨⟨k', v'⟩, hm, rfl⟩ := List.mem_map.mp hk
      rw [getElem?_fill_of_mem h hm] at hv
      exact Option.some.inj hv ▸ hm
    · rw [getElem?_fill_of_not_mem hk] at hv
      simp at hv
  · exact fun hm => getElem?_fill_of_mem h hm _

theorem toList_fill_perm (h : (l.map Prod.fst).Nodup) :
    (fill (∅ : TreeMap α β) l).toList.Perm l := by
  have hd := TreeMap.distinct_keys_toList (t := fill (∅ : TreeMap α β) l)
  refine (List.perm_ext_iff_of_nodup (hd.imp ?_) (List.Nodup.of_map _ h)).mpr ?_
  · rintro a _ hne rfl
    exact hne ReflCmp.compare_self
  · rintro ⟨k, v⟩
    rw [TreeMap.mem_toList_iff_getElem?_eq_some, getElem?_fill_iff h]

/-- The pairs in the order of their keys are what the filled map lists. -/
theorem toList_fill (hp : l'.Perm l) (hs : l'.Pairwise fun a b => compare a.1 b.1 = .lt) :
    (fill (∅ : TreeMap α β) l).toList = l' := by
  have hn' : (l'.map Prod.fst).Nodup := List.pairwise_map.mpr (hs.imp fun hlt he => by
    rw [he, ReflOrd.compare_self] at hlt
    exact Ordering.noConfusion hlt)
  have hn : (l.map Prod.fst).Nodup := (hp.map _).nodup_iff.mp hn'
  refine ((toList_fill_perm hn).trans hp.symm).eq_of_pairwise ?_
    TreeMap.ordered_keys_toList hs
  intro a b _ _ hab hba
  have hswap : compare a.1 b.1 = (compare b.1 a.1).swap := OrientedCmp.eq_swap
  rw [hswap, hba] at hab
  exact Ordering.noConfusion hab

section Search

variable {γ : Type} {t : TreeMap α β} {f : α → β → Option γ}

theorem findSome?_toList_eq_none_iff :
    t.toList.findSome? (fun p => f p.1 p.2) = none ↔
      ∀ k v, t[k]? = some v → f k v = none := by
  rw [List.findSome?_eq_none_iff]
  constructor
  · exact fun h k v hv => h (k, v) (TreeMap.mem_toList_iff_getElem?_eq_some.mpr hv)
  · exact fun h p hp => h p.1 p.2 (TreeMap.mem_toList_iff_getElem?_eq_some.mp hp)

/-- A search through a map in the order of its keys finds the entry with the least key. -/
theorem findSome?_toList_eq_some_iff {r : γ} :
    t.toList.findSome? (fun p => f p.1 p.2) = some r ↔ ∃ k v, t[k]? = some v ∧ f k v = some r ∧
      ∀ k' v', t[k']? = some v' → compare k' k = .lt → f k' v' = none := by
  have hsorted := TreeMap.ordered_keys_toList (t := t)
  constructor
  · intro h
    obtain ⟨l₁, p, l₂, hl, hp, hnone⟩ := List.findSome?_eq_some_iff.mp h
    rw [hl] at hsorted
    have hmem : p ∈ t.toList := hl ▸ List.mem_append_right l₁ List.mem_cons_self
    refine ⟨p.1, p.2, TreeMap.mem_toList_iff_getElem?_eq_some.mp hmem, hp, ?_⟩
    intro k v hv hlt
    have hmem' := TreeMap.mem_toList_iff_getElem?_eq_some.mpr hv
    rw [hl, List.mem_append, List.mem_cons] at hmem'
    rcases hmem' with hbefore | rfl | hafter
    · exact hnone _ hbefore
    · rw [ReflOrd.compare_self] at hlt
      exact Ordering.noConfusion hlt
    · have hgt := List.rel_of_pairwise_cons (List.pairwise_append.mp hsorted).2.1 hafter
      have hswap : compare p.1 k = (compare k p.1).swap := OrientedCmp.eq_swap
      rw [hswap, hlt] at hgt
      exact Ordering.noConfusion hgt
  · rintro ⟨k, v, hv, hr, hleast⟩
    obtain ⟨l₁, l₂, hl⟩ :=
      List.append_of_mem (TreeMap.mem_toList_iff_getElem?_eq_some.mpr hv)
    refine List.findSome?_eq_some_iff.mpr ⟨l₁, (k, v), l₂, hl, hr, fun p hp => ?_⟩
    rw [hl] at hsorted
    have hlt := (List.pairwise_append.mp hsorted).2.2 p hp (k, v) List.mem_cons_self
    have hmem : p ∈ t.toList := hl ▸ List.mem_append_left _ hp
    exact hleast p.1 p.2 (TreeMap.mem_toList_iff_getElem?_eq_some.mp hmem) hlt

/-- A search that only one key can satisfy looks up that key. -/
theorem findSome?_toList_of_unique (k : α) (h : ∀ k' v, k' ≠ k → f k' v = none) :
    t.toList.findSome? (fun p => f p.1 p.2) = (t[k]?).bind (f k) := by
  rcases hf : (t[k]?).bind (f k) with _ | r
  · rw [findSome?_toList_eq_none_iff]
    intro k' v hv
    by_cases hk : k' = k
    · rw [hk] at hv ⊢
      rwa [hv] at hf
    · exact h k' v hk
  · obtain ⟨v, hv, hr⟩ := Option.bind_eq_some_iff.mp hf
    refine findSome?_toList_eq_some_iff.mpr ⟨k, v, hv, hr, fun k' v' _ hlt => ?_⟩
    refine h k' v' fun hk => ?_
    rw [hk, ReflOrd.compare_self] at hlt
    exact Ordering.noConfusion hlt

end Search

/-- Lists are compared in lexicographic order. -/
theorem compare_list_eq_lt {α : Type} [Ord α] [LT α] [LE α] [LawfulOrderOrd α]
    [LawfulOrderLT α] [LawfulEqOrd α] {a b : List α} : compare a b = .lt ↔ a < b := by
  induction a generalizing b with
  | nil =>
    cases b with
    | nil => simp
    | cons y b => simp [compare, List.compareLex_nil_cons]
  | cons x a ih =>
    cases b with
    | nil => simp [compare, List.compareLex_cons_nil]
    | cons y b =>
      rw [List.cons_lt_cons_iff, ← ih, ← Std.compare_eq_lt]
      change List.compareLex compare (x :: a) (y :: b) = _ ↔ _
      rw [List.compareLex_cons_cons, Ordering.then_eq_lt, LawfulEqCmp.compare_eq_iff_eq]
      rfl

end TrtShim.OrderedMap
