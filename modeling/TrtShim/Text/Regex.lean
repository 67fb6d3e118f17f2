import TrtShim.Text.Strings

/-! # Regular expressions with captures

A backtracking matcher finds the ways in which an expression matches the front of a
string, in its order of preference, and returns the first one. What the expression
can match at all is read off its parts.
-/

namespace TrtShim

/-- A regular expression that repeats single characters only. -/
inductive Regex where
  | empty
  | char (p : Char → Bool)
  /-- `p*`, or `p*?` if it is not greedy. -/
  | many (p : Char → Bool) (greedy : Bool)
  /-- `(?!p)`. -/
  | notAhead (p : Char → Bool)
  /-- `$`. -/
  | atEnd
  | seq (r t : Regex)
  | alt (r t : Regex)
  /-- `(?P<name>r)`. -/
  | group (name : Str) (r : Regex)

namespace Regex

/-- What the groups have captured. -/
abbrev Groups := List (Str × Str)

/-- What remains of a string after a repetition, the longest rest first. -/
def rests (p : Char → Bool) : Str → List Str
  | [] => [[]]
  | c :: cs => (c :: cs) :: if p c then rests p cs else []

/-- The ways to match the front of a string, in the order in which they are tried: the captures,
and the rest of the string. -/
def results : Regex → Str → List (Groups × Str)
  | empty, s => [([], s)]
  | char _, [] => []
  | char p, c :: s => if p c then [([], s)] else []
  | many p greedy, s =>
    (if greedy then (rests p s).reverse else rests p s).map fun rest => ([], rest)
  | notAhead p, s => if s.head?.any p then [] else [([], s)]
  | atEnd, s => if s = [] ∨ s = ['\n'] then [([], s)] else []
  | seq r t, s =>
    (r.results s).flatMap fun m => (t.results m.2).map fun m' => (m.1 ++ m'.1, m'.2)
  | alt r t, s => r.results s ++ t.results s
  | group name r, s =>
    (r.results s).map fun m => ((name, s.take (s.length - m.2.length)) :: m.1, m.2)

/-- `re.match`. -/
def first (r : Regex) (s : Str) : Option (Groups × Str) := (r.results s).head?

/-- `re.fullmatch` finds a match. -/
def full (r : Regex) (s : Str) : Bool := (r.results s).any fun m => m.2 = []

/-- The match here, if the previous character passes a test. -/
def matchAt (start : Option Char → Bool) (r : Regex) (prev : Option Char) (s : Str) :
    Option (Groups × Str) :=
  if start prev then r.first s else none

/-- `re.search`, for an expression that starts after a character that passes a test. -/
def search (start : Option Char → Bool) (r : Regex) : Option Char → Str → Option (Groups × Str)
  | prev, [] => matchAt start r prev []
  | prev, c :: cs => (matchAt start r prev (c :: cs)).or (search start r (some c) cs)

/-- `re.sub` by the empty string, after some characters that a match has consumed. -/
def erase (r : Regex) : ℕ → Str → Str
  | _, [] => []
  | k + 1, _ :: cs => erase r k cs
  | 0, c :: cs =>
    match r.first (c :: cs) with
    | some (_, rest) =>
      if rest.length ≤ cs.length then erase r (cs.length - rest.length) cs else c :: erase r 0 cs
    | none => c :: erase r 0 cs

/-- What a group has captured. -/
def captured (g : Groups) (name : Str) : Str :=
  (g.find? fun q => q.1 = name).elim [] Prod.snd

/-- A string, character by character. -/
def lit (s : Str) : Regex := s.foldr (fun c r => seq (char fun d => d = c) r) empty

/-- `r?`. -/
def opt (r : Regex) : Regex := alt r empty

/-- `p+`, or `p+?` if it is not greedy. -/
def plus (p : Char → Bool) (greedy : Bool) : Regex := seq (char p) (many p greedy)

section Results

variable {r t : Regex} {p : Char → Bool} {greedy : Bool} {g : Groups} {s s' : Str} {name : Str}

theorem rests_nil : rests p [] = [[]] := rfl

theorem rests_cons (c : Char) :
    rests p (c :: s) = (c :: s) :: if p c then rests p s else [] := rfl

@[simp] theorem results_empty : empty.results s = [([], s)] := rfl

@[simp] theorem results_char_nil : (char p).results [] = [] := rfl

@[simp] theorem results_char_cons (c : Char) :
    (char p).results (c :: s) = if p c then [([], s)] else [] := rfl

theorem results_many : (many p greedy).results s =
    (if greedy then (rests p s).reverse else rests p s).map fun rest => ([], rest) := rfl

theorem results_notAhead :
    (notAhead p).results s = if s.head?.any p then [] else [([], s)] := rfl

theorem results_atEnd :
    atEnd.results s = if s = [] ∨ s = ['\n'] then [([], s)] else [] := rfl

@[simp] theorem results_seq : (seq r t).results s =
    (r.results s).flatMap fun m => (t.results m.2).map fun m' => (m.1 ++ m'.1, m'.2) := rfl

theorem results_group : (group name r).results s =
    (r.results s).map fun m => ((name, s.take (s.length - m.2.length)) :: m.1, m.2) := rfl

theorem mem_rests : s' ∈ rests p s ↔ ∃ w : Str, (∀ c ∈ w, p c = true) ∧ s = w ++ s' := by
  induction s with
  | nil =>
    rw [rests_nil, List.mem_singleton]
    constructor
    · rintro rfl
      exact ⟨[], by simp, rfl⟩
    · rintro ⟨w, -, h⟩
      exact (List.append_eq_nil_iff.mp h.symm).2
  | cons c cs ih =>
    rw [rests_cons, List.mem_cons]
    constructor
    · rintro (rfl | h)
      · exact ⟨[], by simp, rfl⟩
      · split at h
        next hc =>
          obtain ⟨w, hw, rfl⟩ := ih.mp h
          exact ⟨c :: w, List.forall_mem_cons.mpr ⟨hc, hw⟩, rfl⟩
        next => exact absurd h List.not_mem_nil
    · rintro ⟨w, hw, h⟩
      rcases w with _ | ⟨d, w⟩
      · exact .inl h.symm
      · obtain ⟨rfl, rfl⟩ := List.cons.inj h
        obtain ⟨hc, hw⟩ := List.forall_mem_cons.mp hw
        rw [if_pos hc]
        exact .inr (ih.mpr ⟨w, hw, rfl⟩)

@[simp] theorem mem_empty : (g, s') ∈ empty.results s ↔ g = [] ∧ s = s' := by
  rw [results_empty, List.mem_singleton, Prod.mk.injEq, eq_comm (a := s)]

@[simp] theorem mem_char :
    (g, s') ∈ (char p).results s ↔ g = [] ∧ ∃ c, p c = true ∧ s = c :: s' := by
  rcases s with _ | ⟨c, cs⟩
  · simp
  · rw [results_char_cons]
    constructor
    · intro h
      split at h
      next hc =>
        obtain ⟨rfl, rfl⟩ := Prod.mk.inj (List.mem_singleton.mp h)
        exact ⟨rfl, c, hc, rfl⟩
      next => exact absurd h List.not_mem_nil
    · rintro ⟨rfl, d, hd, h⟩
      obtain ⟨rfl, rfl⟩ := List.cons.inj h
      rw [if_pos hd]
      exact List.mem_singleton_self _

@[simp] theorem mem_many : (g, s') ∈ (many p greedy).results s ↔
    g = [] ∧ ∃ w : Str, (∀ c ∈ w, p c = true) ∧ s = w ++ s' := by
  have hrests : s' ∈ (if greedy then (rests p s).reverse else rests p s) ↔ s' ∈ rests p s := by
    cases greedy <;> simp
  rw [results_many, List.mem_map, ← mem_rests, ← hrests]
  constructor
  · rintro ⟨rest, hrest, h⟩
    obtain ⟨rfl, rfl⟩ := Prod.mk.inj h
    exact ⟨rfl, hrest⟩
  · rintro ⟨rfl, h⟩
    exact ⟨s', h, rfl⟩

@[simp] theorem mem_notAhead : (g, s') ∈ (notAhead p).results s ↔
    g = [] ∧ s = s' ∧ s'.head?.any p = false := by
  rw [results_notAhead]
  constructor
  · intro h
    split at h
    next => exact absurd h List.not_mem_nil
    next hp =>
      obtain ⟨rfl, rfl⟩ := Prod.mk.inj (List.mem_singleton.mp h)
      exact ⟨rfl, rfl, Bool.eq_false_iff.mpr hp⟩
  · rintro ⟨rfl, rfl, hp⟩
    rw [if_neg (Bool.eq_false_iff.mp hp)]
    exact List.mem_singleton_self _

@[simp] theorem mem_atEnd : (g, s') ∈ atEnd.results s ↔
    g = [] ∧ s = s' ∧ (s' = [] ∨ s' = ['\n']) := by
  rw [results_atEnd]
  constructor
  · intro h
    split at h
    next hs =>
      obtain ⟨rfl, rfl⟩ := Prod.mk.inj (List.mem_singleton.mp h)
      exact ⟨rfl, rfl, hs⟩
    next => exact absurd h List.not_mem_nil
  · rintro ⟨rfl, rfl, hs⟩
    rw [if_pos hs]
    exact List.mem_singleton_self _

@[simp] theorem mem_seq : (g, s') ∈ (seq r t).results s ↔ ∃ g₁ s₁ g₂,
    (g₁, s₁) ∈ r.results s ∧ (g₂, s') ∈ t.results s₁ ∧ g = g₁ ++ g₂ := by
  rw [results_seq, List.mem_flatMap]
  constructor
  · rintro ⟨⟨g₁, s₁⟩, hr, h⟩
    obtain ⟨⟨g₂, s₂⟩, ht, h⟩ := List.mem_map.mp h
    obtain ⟨rfl, rfl⟩ := Prod.mk.inj h
    exact ⟨g₁, s₁, g₂, hr, ht, rfl⟩
  · rintro ⟨g₁, s₁, g₂, hr, ht, rfl⟩
    exact ⟨(g₁, s₁), hr, List.mem_map.mpr ⟨(g₂, s'), ht, rfl⟩⟩

@[simp] theorem mem_alt : (g, s') ∈ (alt r t).results s ↔
    (g, s') ∈ r.results s ∨ (g, s') ∈ t.results s := List.mem_append

/-- What remains after a match is the end of the string. -/
theorem suffix_of_mem (h : (g, s') ∈ r.results s) : ∃ w, s = w ++ s' := by
  induction r generalizing g s s' with
  | empty => exact ⟨[], (mem_empty.mp h).2⟩
  | char p =>
    obtain ⟨-, c, -, rfl⟩ := mem_char.mp h
    exact ⟨[c], rfl⟩
  | many p greedy =>
    obtain ⟨-, w, -, rfl⟩ := mem_many.mp h
    exact ⟨w, rfl⟩
  | notAhead p => exact ⟨[], (mem_notAhead.mp h).2.1⟩
  | atEnd => exact ⟨[], (mem_atEnd.mp h).2.1⟩
  | seq r t ihr iht =>
    obtain ⟨g₁, s₁, g₂, hr, ht, rfl⟩ := mem_seq.mp h
    obtain ⟨w, rfl⟩ := ihr hr
    obtain ⟨w', rfl⟩ := iht ht
    exact ⟨w ++ w', (List.append_assoc w w' s').symm⟩
  | alt r t ihr iht =>
    rcases mem_alt.mp h with h | h
    · exact ihr h
    · exact iht h
  | group name r ih =>
    obtain ⟨⟨g₁, s₁⟩, hr, h⟩ := List.mem_map.mp h
    obtain ⟨-, rfl⟩ := Prod.mk.inj h
    exact ih hr

@[simp] theorem mem_group : (g, s') ∈ (group name r).results s ↔ ∃ g₁ w,
    (g₁, s') ∈ r.results s ∧ s = w ++ s' ∧ g = (name, w) :: g₁ := by
  have htake (w : Str) : (w ++ s').take ((w ++ s').length - s'.length) = w := by simp
  rw [results_group, List.mem_map]
  constructor
  · rintro ⟨⟨g₁, s₁⟩, hr, h⟩
    obtain ⟨rfl, rfl⟩ := Prod.mk.inj h
    obtain ⟨w, rfl⟩ := suffix_of_mem hr
    exact ⟨g₁, w, hr, rfl, by rw [htake]⟩
  · rintro ⟨g₁, w, hr, rfl, rfl⟩
    exact ⟨(g₁, s'), hr, by rw [htake]⟩

/-- A group captures what the expression in it consumes. -/
theorem mem_group_of {P : Str → Prop}
    (h : ∀ g s', (g, s') ∈ r.results s → g = [] ∧ ∃ w, P w ∧ s = w ++ s')
    (hmem : (g, s') ∈ (group name r).results s) : ∃ w, P w ∧ s = w ++ s' ∧ g = [(name, w)] := by
  obtain ⟨g₁, w, hr, hs, rfl⟩ := mem_group.mp hmem
  obtain ⟨rfl, w', hw', hs'⟩ := h _ _ hr
  obtain rfl : w = w' := List.append_cancel_right (hs.symm.trans hs')
  exact ⟨w, hw', hs, rfl⟩

@[simp] theorem mem_lit {l : Str} : (g, s') ∈ (lit l).results s ↔ g = [] ∧ s = l ++ s' := by
  induction l generalizing g s with
  | nil => exact mem_empty
  | cons c l ih =>
    rw [lit, List.foldr_cons, mem_seq]
    constructor
    · rintro ⟨g₁, s₁, g₂, hc, hl, rfl⟩
      obtain ⟨rfl, d, hd, rfl⟩ := mem_char.mp hc
      obtain ⟨rfl, rfl⟩ := ih.mp hl
      exact ⟨rfl, by rw [of_decide_eq_true hd]; rfl⟩
    · rintro ⟨rfl, rfl⟩
      exact ⟨[], l ++ s', [], mem_char.mpr ⟨rfl, c, decide_eq_true rfl, rfl⟩,
        ih.mpr ⟨rfl, rfl⟩, rfl⟩

@[simp] theorem mem_opt : (g, s') ∈ (opt r).results s ↔
    (g, s') ∈ r.results s ∨ g = [] ∧ s = s' := by
  rw [opt, mem_alt, mem_empty]

@[simp] theorem mem_plus : (g, s') ∈ (plus p greedy).results s ↔
    g = [] ∧ ∃ w : Str, w ≠ [] ∧ (∀ c ∈ w, p c = true) ∧ s = w ++ s' := by
  rw [plus, mem_seq]
  constructor
  · rintro ⟨g₁, s₁, g₂, hc, hm, rfl⟩
    obtain ⟨rfl, c, hp, rfl⟩ := mem_char.mp hc
    obtain ⟨rfl, w, hw, rfl⟩ := mem_many.mp hm
    exact ⟨rfl, c :: w, List.cons_ne_nil c w, List.forall_mem_cons.mpr ⟨hp, hw⟩, rfl⟩
  · rintro ⟨rfl, w, hne, hw, rfl⟩
    rcases w with _ | ⟨c, w⟩
    · exact absurd rfl hne
    · obtain ⟨hp, hw⟩ := List.forall_mem_cons.mp hw
      exact ⟨[], w ++ s', [], mem_char.mpr ⟨rfl, c, hp, rfl⟩, mem_many.mpr ⟨rfl, w, hw, rfl⟩, rfl⟩

end Results

section First

variable {r t : Regex} {p : Char → Bool} {g : Groups} {s rest w : Str} {name : Str} {β : Type}

/-- The first rest from which a continuation succeeds. -/
theorem head?_flatMap_rests {f : Str → List β} (hw : ∀ c ∈ w, p c = true)
    (hfail : ∀ u v, w = u ++ v → v ≠ [] → f (v ++ rest) = []) (hne : f rest ≠ []) :
    ((rests p (w ++ rest)).flatMap f).head? = (f rest).head? := by
  induction w with
  | nil =>
    obtain ⟨b, bs, hb⟩ := List.exists_cons_of_ne_nil hne
    rcases rest with _ | ⟨c, cs⟩
    · rw [List.nil_append, rests_nil, List.flatMap_singleton]
    · rw [List.nil_append, rests_cons, List.flatMap_cons, hb]
      rfl
  | cons c w ih =>
    obtain ⟨hc, hw⟩ := List.forall_mem_cons.mp hw
    have hskip : f (c :: (w ++ rest)) = [] := hfail [] (c :: w) rfl (List.cons_ne_nil c w)
    rw [List.cons_append, rests_cons, if_pos hc, List.flatMap_cons, hskip, List.nil_append]
    refine ih hw fun u v he hv => ?_
    exact hfail (c :: u) v (congrArg (c :: ·) he) hv

/-- A group that repeats as little as possible captures the shortest string after which the
expression can go on. -/
theorem first_lazy (hne : w ≠ []) (hw : ∀ c ∈ w, p c = true)
    (hfail : ∀ u v, w = u ++ v → u ≠ [] → v ≠ [] → t.results (v ++ rest) = [])
    (ht : t.results rest ≠ []) : (seq (group name (plus p false)) t).first (w ++ rest) =
      (t.first rest).map fun m => ((name, w) :: m.1, m.2) := by
  obtain ⟨c, w, rfl⟩ := List.exists_cons_of_ne_nil hne
  obtain ⟨hc, hw⟩ := List.forall_mem_cons.mp hw
  let f (r : Str) : List (Groups × Str) := (t.results r).map fun m =>
    ((name, (c :: (w ++ rest)).take ((c :: (w ++ rest)).length - r.length)) :: m.1, m.2)
  have hresults : (seq (group name (plus p false)) t).results (c :: (w ++ rest)) =
      (rests p (w ++ rest)).flatMap f := by
    simp only [plus, results_seq, results_group, results_char_cons, results_many, hc, if_true,
      Bool.false_eq_true, if_false, List.flatMap_singleton, List.map_map, List.flatMap_map]
    rfl
  have htake : (c :: (w ++ rest)).take ((c :: (w ++ rest)).length - rest.length) = c :: w := by
    rw [← List.cons_append, List.length_append, Nat.add_sub_cancel, List.take_left]
  rw [first, List.cons_append, hresults, head?_flatMap_rests hw, first, List.head?_map, htake]
  · intro u v he hv
    have hnone := hfail (c :: u) v (congrArg (c :: ·) he) (List.cons_ne_nil c u) hv
    simp only [f, hnone, List.map_nil]
  · exact fun hnil => ht (List.map_eq_nil_iff.mp hnil)

theorem results_lit (l s : Str) : (lit l).results (l ++ s) = [([], s)] := by
  induction l with
  | nil => rfl
  | cons c l ih =>
    rw [lit, List.foldr_cons, results_seq, List.cons_append, results_char_cons,
      if_pos (decide_eq_true rfl), List.flatMap_singleton]
    change ((lit l).results (l ++ s)).map _ = _
    rw [ih]
    rfl

/-- A group that may be empty captures the shortest string after which the expression can go on. -/
theorem first_lazy_many (hw : ∀ c ∈ w, p c = true)
    (hfail : ∀ u v, w = u ++ v → v ≠ [] → t.results (v ++ rest) = [])
    (ht : t.results rest ≠ []) : (seq (group name (many p false)) t).first (w ++ rest) =
      (t.first rest).map fun m => ((name, w) :: m.1, m.2) := by
  let f (r : Str) : List (Groups × Str) := (t.results r).map fun m =>
    ((name, (w ++ rest).take ((w ++ rest).length - r.length)) :: m.1, m.2)
  have hresults : (seq (group name (many p false)) t).results (w ++ rest) =
      (rests p (w ++ rest)).flatMap f := by
    simp only [results_seq, results_group, results_many, Bool.false_eq_true, if_false,
      List.map_map, List.flatMap_map]
    rfl
  have htake : (w ++ rest).take ((w ++ rest).length - rest.length) = w := by simp
  rw [first, hresults, head?_flatMap_rests hw, first, List.head?_map, htake]
  · intro u v he hv
    simp only [f, hfail u v he hv, List.map_nil]
  · exact fun hnil => ht (List.map_eq_nil_iff.mp hnil)

/-- The longest repetition is tried first. -/
theorem first_greedy (hw : ∀ c ∈ w, p c = true) {c : Char} (hc : p c = false)
    (ht : t.results (c :: s) ≠ []) :
    (seq (many p true) t).first (w ++ c :: s) = t.first (c :: s) := by
  have hlast : ∃ l, rests p (w ++ c :: s) = l ++ [c :: s] := by
    clear ht
    induction w with
    | nil => exact ⟨[], by rw [List.nil_append, rests_cons, hc]; rfl⟩
    | cons d w ih =>
      obtain ⟨hd, hw⟩ := List.forall_mem_cons.mp hw
      obtain ⟨l, hl⟩ := ih hw
      refine ⟨(d :: (w ++ c :: s)) :: l, ?_⟩
      rw [List.cons_append, rests_cons, if_pos hd, hl]
      rfl
  obtain ⟨l, hl⟩ := hlast
  obtain ⟨m, ms, hm⟩ := List.exists_cons_of_ne_nil ht
  rw [first, first, hm]
  simp [results_many, hl, hm]

/-- Repeated characters that end where another kind of character follows. -/
theorem results_plus_of_head {c : Char} {greedy : Bool} (hc : p c = true)
    (hs : ∀ d ∈ s.head?, p d = false) : (plus p greedy).results (c :: s) = [([], s)] := by
  have hrests : rests p s = [s] := by
    rcases s with _ | ⟨d, s⟩
    · rfl
    · rw [rests_cons, hs d rfl]
      rfl
  cases greedy <;> simp [plus, results_many, hc, hrests]

/-- Where the first part can match in one way, the second part decides. -/
theorem first_seq_of_singleton (h : r.results s = [([], rest)]) :
    (seq r t).first s = t.first rest := by
  rw [first, results_seq, h, List.flatMap_singleton, first]
  simp

end First

section Search

variable {r : Regex} {g : Groups} {s rest w : Str} {m : Groups × Str}

/-- A search finds the first position at which the expression matches. -/
theorem search_append {start : Option Char → Bool} {prev : Option Char}
    (hskip : ∀ u v, w = u ++ v → v ≠ [] → r.first (v ++ s) = none)
    (hstart : start (w.getLast?.or prev) = true) (hfirst : r.first s = some m) :
    search start r prev (w ++ s) = some m := by
  induction w generalizing prev with
  | nil =>
    have hmatch : matchAt start r prev s = some m := (if_pos (by simpa using hstart)).trans hfirst
    rw [List.nil_append]
    cases s with
    | nil => exact hmatch
    | cons c s => rw [search, hmatch, Option.some_or]
  | cons c w ih =>
    have hnone : r.first (c :: (w ++ s)) = none := hskip [] (c :: w) rfl (List.cons_ne_nil c w)
    rw [List.cons_append, search, matchAt, hnone, ite_self, Option.none_or]
    refine ih (fun u v he hv => hskip (c :: u) v (congrArg (c :: ·) he) hv) ?_
    rcases hw : w.getLast? with _ | d
    · obtain rfl := List.getLast?_eq_none_iff.mp hw
      simpa using hstart
    · rw [List.getLast?_cons, hw] at hstart
      simpa using hstart

theorem erase_length (w s : Str) : erase r w.length (w ++ s) = erase r 0 s := by
  induction w with
  | nil => rfl
  | cons c w ih => rw [List.length_cons, List.cons_append, erase, ih]

/-- A match is erased. -/
theorem erase_match (hne : w ≠ []) (h : r.first (w ++ s) = some (g, s)) :
    erase r 0 (w ++ s) = erase r 0 s := by
  obtain ⟨c, w, rfl⟩ := List.exists_cons_of_ne_nil hne
  rw [List.cons_append] at h ⊢
  rw [erase, h]
  simp only [List.length_append, Nat.le_add_left, if_true, Nat.add_sub_cancel]
  exact erase_length w s

/-- A character at which no match starts is kept. -/
theorem erase_keep {c : Char} (h : r.first (c :: s) = none) :
    erase r 0 (c :: s) = c :: erase r 0 s := by
  rw [erase, h]

theorem results_eq_nil_of_not_isPrefix {l : Str} {t : Regex} (h : ¬ l <+: s) :
    (seq (lit l) t).results s = [] := by
  refine List.eq_nil_iff_forall_not_mem.mpr fun m hm => h ?_
  obtain ⟨g₁, s₁, g₂, hl, -, -⟩ := mem_seq.mp hm
  obtain ⟨-, rfl⟩ := mem_lit.mp hl
  exact List.prefix_append l s₁

theorem first_eq_none_of_not_isPrefix {l : Str} {t : Regex} (h : ¬ l <+: s) :
    (seq (lit l) t).first s = none := by
  rw [first, results_eq_nil_of_not_isPrefix h]
  rfl

/-- A group between two strings captures the shortest text before the closing one. -/
theorem first_delimited {name opening closing : Str}
    (h : ∀ u v, w = u ++ v → v ≠ [] → ¬ closing <+: v ++ (closing ++ rest)) :
    (seq (lit opening) (seq (group name (many (fun _ => true) false))
      (seq (lit closing) empty))).first (opening ++ (w ++ (closing ++ rest))) =
        some ([(name, w)], rest) := by
  have hclosing : (seq (lit closing) empty).results (closing ++ rest) = [([], rest)] := by
    rw [results_seq, results_lit]
    rfl
  have hearlier : ∀ u v, w = u ++ v → v ≠ [] →
      (seq (lit closing) empty).results (v ++ (closing ++ rest)) = [] :=
    fun u v he hv => results_eq_nil_of_not_isPrefix (h u v he hv)
  have hmatch : (seq (lit closing) empty).results (closing ++ rest) ≠ [] :=
    hclosing ▸ List.cons_ne_nil _ _
  rw [first_seq_of_singleton (results_lit _ _), first_lazy_many (fun _ _ => rfl) hearlier hmatch,
    first, hclosing]
  rfl

/-- Text in which no match starts is kept. -/
theorem erase_append (h : ∀ u v, w = u ++ v → v ≠ [] → r.first (v ++ s) = none) :
    erase r 0 (w ++ s) = w ++ erase r 0 s := by
  induction w with
  | nil => rfl
  | cons c w ih =>
    have hnone : r.first (c :: (w ++ s)) = none := h [] (c :: w) rfl (List.cons_ne_nil c w)
    rw [List.cons_append, erase_keep hnone,
      ih fun u v he hv => h (c :: u) v (congrArg (c :: ·) he) hv]
    rfl

theorem not_prefix_of_not_mem {c : Char} {l : Str} (h : c ∉ w) (hne : w ≠ []) :
    ¬ c :: l <+: w ++ s := by
  obtain ⟨d, w, rfl⟩ := List.exists_cons_of_ne_nil hne
  exact fun hprefix => h ((List.cons_prefix_cons.mp hprefix).1 ▸ List.mem_cons_self)

/-- Text without the first character of the matches is kept. -/
theorem erase_append_of_not_mem {c : Char} {l : Str} {t : Regex} (h : c ∉ w) :
    erase (seq (lit (c :: l)) t) 0 (w ++ s) = w ++ erase (seq (lit (c :: l)) t) 0 s := by
  refine erase_append fun u v he hv => first_eq_none_of_not_isPrefix ?_
  exact not_prefix_of_not_mem (fun hmem => h (he ▸ List.mem_append_right u hmem)) hv

end Search

end Regex

end TrtShim
