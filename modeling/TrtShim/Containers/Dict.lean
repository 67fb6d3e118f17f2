import Mathlib

/-! # Dictionaries in insertion order

A dictionary with a default value, changed at one key after the other in a loop. Under
each key it holds what the changes at that key make of the default. A counter is the
case in which every change adds one.
-/

namespace TrtShim.Dict

variable {κ ν α : Type} [DecidableEq κ]

/-- The value under a key, or the default value. -/
def get (z : ν) : List (κ × ν) → κ → ν
  | [], _ => z
  | (k', v) :: d, k => if k' = k then v else get z d k

/-- Change the value under a key. A new key comes last. -/
def modify (z : ν) (f : ν → ν) (k : κ) : List (κ × ν) → List (κ × ν)
  | [] => [(k, f z)]
  | (k', v) :: d => if k' = k then (k', f v) :: d else (k', v) :: modify z f k d

/-- Change the dictionary for each entry of a list. -/
def collect (z : ν) (key : α → κ) (f : α → ν → ν) (l : List α) : List (κ × ν) :=
  l.foldl (fun d a => modify z (f a) (key a) d) []

/-- Count the entries of a list. -/
def tally (l : List κ) : List (κ × ℕ) := collect 0 id (fun _ n => n + 1) l

/-- The keys with the greatest counts; among equal counts, the earlier keys come first. -/
def mostCommon (n : ℕ) (d : List (κ × ℕ)) : List (κ × ℕ) :=
  (d.insertionSort fun a b => b.2 ≤ a.2).take n

section Modify

variable {z v : ν} {f : ν → ν} {k k' : κ} {d : List (κ × ν)}

theorem get_modify : get z (modify z f k d) k' = if k = k' then f (get z d k) else get z d k' := by
  induction d with
  | nil => rfl
  | cons q d ih =>
    obtain ⟨k₀, v⟩ := q
    rw [modify]
    by_cases hk : k₀ = k
    · subst hk
      rw [if_pos rfl, get, get, if_pos rfl, get]
      split_ifs <;> rfl
    · rw [if_neg hk, get, ih, get, if_neg hk, get]
      split_ifs with h₀ h
      · exact absurd (h₀.trans h.symm) hk
      all_goals rfl

theorem keys_modify : (modify z f k d).map Prod.fst =
    if k ∈ d.map Prod.fst then d.map Prod.fst else d.map Prod.fst ++ [k] := by
  induction d with
  | nil => rfl
  | cons q d ih =>
    obtain ⟨k₀, v⟩ := q
    rw [modify]
    by_cases hk : k₀ = k
    · simp [hk]
    · rw [if_neg hk, List.map_cons, ih, List.map_cons]
      split_ifs with h h' h'
      · rfl
      · exact absurd (List.mem_cons_of_mem _ h) h'
      · exact absurd ((List.mem_cons.mp h').resolve_left (Ne.symm hk)) h
      · rfl

theorem nodup_keys_modify (h : (d.map Prod.fst).Nodup) :
    ((modify z f k d).map Prod.fst).Nodup := by
  rw [keys_modify]
  split_ifs with hk
  · exact h
  · exact h.append (List.nodup_singleton k) (List.disjoint_singleton.mpr hk)

theorem get_of_mem (h : (d.map Prod.fst).Nodup) (hm : (k, v) ∈ d) : get z d k = v := by
  induction d with
  | nil => exact absurd hm List.not_mem_nil
  | cons q d ih =>
    obtain ⟨k₀, v₀⟩ := q
    obtain ⟨hk₀, hd⟩ := List.nodup_cons.mp h
    rw [get]
    rcases List.mem_cons.mp hm with he | hm
    · obtain ⟨rfl, rfl⟩ := Prod.mk.inj he
      exact if_pos rfl
    · have hne : k₀ ≠ k := fun he => hk₀ (List.mem_map.mpr ⟨_, hm, he.symm⟩)
      rw [if_neg hne, ih hd hm]

theorem get_of_not_mem (h : k ∉ d.map Prod.fst) : get z d k = z := by
  induction d with
  | nil => rfl
  | cons q d ih =>
    obtain ⟨hne, hd⟩ := not_or.mp (mt List.mem_cons.mpr h)
    rw [get, if_neg (Ne.symm hne), ih hd]

theorem sum_modify {d : List (κ × ℕ)} :
    ((modify 0 (· + 1) k d).map Prod.snd).sum = (d.map Prod.snd).sum + 1 := by
  induction d with
  | nil => rfl
  | cons q d ih =>
    obtain ⟨k₀, n⟩ := q
    rw [modify]
    split_ifs
    · simp only [List.map_cons, List.sum_cons]
      omega
    · rw [List.map_cons, List.sum_cons, ih, List.map_cons, List.sum_cons]
      omega

end Modify

section Collect

variable {z : ν} {key : α → κ} {f : α → ν → ν} {l : List α} {k : κ}

theorem collect_concat (a : α) :
    collect z key f (l ++ [a]) = modify z (f a) (key a) (collect z key f l) := by
  rw [collect, List.foldl_append]
  rfl

/-- Under a key, the changes at that key have been made in their order. -/
theorem get_collect :
    get z (collect z key f l) k = (l.filter fun a => key a = k).foldl (fun v a => f a v) z := by
  induction l using List.reverseRecOn with
  | nil => rfl
  | append_singleton l a ih =>
    rw [collect_concat, get_modify, List.filter_append, List.foldl_append]
    by_cases hk : key a = k
    · subst hk
      simp [ih]
    · simp [ih, hk]

theorem nodup_keys_collect : ((collect z key f l).map Prod.fst).Nodup := by
  induction l using List.reverseRecOn with
  | nil => exact List.nodup_nil
  | append_singleton l a ih =>
    rw [collect_concat]
    exact nodup_keys_modify ih

end Collect

section Tally

variable {l : List κ}

theorem tally_concat (k : κ) : tally (l ++ [k]) = modify 0 (· + 1) k (tally l) := collect_concat k

/-- A counter counts. -/
theorem get_tally (k : κ) : get 0 (tally l) k = l.countP fun a => a = k := by
  induction l using List.reverseRecOn with
  | nil => rfl
  | append_singleton l a ih =>
    rw [tally_concat, get_modify, List.countP_append, List.countP_singleton]
    by_cases hk : a = k
    · subst hk
      simp [ih]
    · simp [ih, hk]

theorem sum_tally (l : List κ) : ((tally l).map Prod.snd).sum = l.length := by
  induction l using List.reverseRecOn with
  | nil => rfl
  | append_singleton l a ih => rw [tally_concat, sum_modify, ih, List.length_append]; rfl

end Tally

section MostCommon

omit [DecidableEq κ]

/-- No key left out is more frequent than one of the most common keys. -/
theorem le_of_mem_mostCommon {n : ℕ} {d : List (κ × ℕ)} {a b : κ × ℕ} (ha : a ∈ mostCommon n d)
    (hb : b ∈ d) (hout : b ∉ mostCommon n d) : b.2 ≤ a.2 := by
  let r (a b : κ × ℕ) : Prop := b.2 ≤ a.2
  have htotal : Std.Total r := ⟨fun a b => Nat.le_total b.2 a.2⟩
  have htrans : IsTrans (κ × ℕ) r := ⟨fun _ _ _ hab hbc => Nat.le_trans hbc hab⟩
  have hsorted := List.pairwise_insertionSort r d
  have hmem := (List.mem_insertionSort r).mpr hb
  rw [← List.take_append_drop n (d.insertionSort r), List.pairwise_append] at hsorted
  rw [← List.take_append_drop n (d.insertionSort r)] at hmem
  exact hsorted.2.2 a ha b ((List.mem_append.mp hmem).resolve_left hout)

end MostCommon

end TrtShim.Dict
