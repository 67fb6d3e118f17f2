import Mathlib.Data.List.TakeWhile
import TrtShim.Text.Strings

/-! # Lines of words

Output that is written line by line is read back line by line, and a word at the
front of a line is its first word.
-/

namespace TrtShim.Str

variable {s w : Str} {c : Char}

/-- Standard output in text mode: every line end is a line feed. -/
def newlines : Str → Str
  | [] => []
  | '\r' :: '\n' :: s => '\n' :: newlines s
  | '\r' :: s => '\n' :: newlines s
  | c :: s => c :: newlines s

/-- A string without line ends. -/
def IsLine (s : Str) : Prop := ∀ c ∈ s, isLineEnd c = false

instance (s : Str) : Decidable (IsLine s) := List.decidableBAll _ _

/-- All characters are blanks. -/
def IsBlank (s : Str) : Prop := ∀ c ∈ s, isSpace c = true

/-- A string that is one word. -/
structure IsWord (w : Str) : Prop where
  nonempty : w ≠ []
  noSpace : ∀ c ∈ w, isSpace c = false

theorem newlines_eq_self (h : '\r' ∉ s) : newlines s = s := by
  induction s with
  | nil => rfl
  | cons c s ih =>
    rw [List.mem_cons, not_or] at h
    rw [newlines, ih h.2]
    · rintro t rfl -
      exact h.1 rfl
    · rintro rfl
      exact h.1 rfl

theorem isSpace_of_isLineEnd (h : isLineEnd c = true) : isSpace c = true := by
  simp only [isLineEnd, List.contains_eq_mem, decide_eq_true_eq, List.mem_cons, List.not_mem_nil,
    or_false] at h
  rcases h with h | h | h | h | h | h | h | h | h | h
  all_goals
    rw [isSpace, h]
    rfl

theorem IsWord.isLine (h : IsWord w) : IsLine w := fun c hc =>
  Bool.eq_false_iff.mpr fun hend =>
    absurd (isSpace_of_isLineEnd hend) (Bool.eq_false_iff.mp (h.noSpace c hc))

theorem IsLine.append {t : Str} (hs : IsLine s) (ht : IsLine t) : IsLine (s ++ t) :=
  List.forall_mem_append.mpr ⟨hs, ht⟩

theorem IsLine.cons (hc : isLineEnd c = false) (hs : IsLine s) : IsLine (c :: s) :=
  List.forall_mem_cons.mpr ⟨hc, hs⟩

theorem IsLine.intercalate {sep : Str} {l : List Str} (hsep : IsLine sep)
    (hl : ∀ s ∈ l, IsLine s) : IsLine (sep.intercalate l) := by
  induction l with
  | nil => exact nofun
  | cons s l ih =>
    obtain ⟨hs, hl⟩ := List.forall_mem_cons.mp hl
    cases l with
    | nil =>
      rw [List.intercalate_singleton]
      exact hs
    | cons t l =>
      rw [List.intercalate_cons_cons]
      exact (hs.append hsep).append (ih hl)

/-- Lines that were written one after the other end with line feeds. -/
theorem newlines_flatMap {lines : List Str} (h : ∀ line ∈ lines, IsLine line) :
    newlines (lines.flatMap fun line => line ++ ['\n']) =
      lines.flatMap fun line => line ++ ['\n'] := by
  refine newlines_eq_self fun hmem => ?_
  obtain ⟨line, hline, hmem⟩ := List.mem_flatMap.mp hmem
  rcases List.mem_append.mp hmem with hmem | hmem
  · exact absurd (h line hline _ hmem) (by decide)
  · exact absurd hmem (by decide)

theorem linesFrom_line {line : Str} (h : IsLine line) (acc rest : Str) :
    linesFrom false acc (line ++ '\n' :: rest) = (acc ++ line) :: linesFrom false [] rest := by
  induction line generalizing acc with
  | nil =>
    rw [List.append_nil]
    rfl
  | cons c line ih =>
    obtain ⟨hc, hline⟩ := List.forall_mem_cons.mp h
    rw [List.cons_append, linesFrom, if_neg (by simp), hc, if_neg (by simp), ih hline,
      List.append_assoc]
    rfl

/-- Lines that were written one after the other are read back. -/
theorem splitlines_flatMap {lines : List Str} (h : ∀ line ∈ lines, IsLine line) :
    splitlines (lines.flatMap fun line => line ++ ['\n']) = lines := by
  rw [splitlines]
  induction lines with
  | nil => rfl
  | cons line lines ih =>
    obtain ⟨hline, hlines⟩ := List.forall_mem_cons.mp h
    rw [List.flatMap_cons, List.append_assoc, List.singleton_append, linesFrom_line hline,
      ih hlines, List.nil_append]

/-- A word at the front of a string is its first word. -/
theorem split_word (h : IsWord w) (s : Str) : split (w ++ ' ' :: s) = w :: split s := by
  rw [split, List.splitOnP_append_cons_of_forall_mem h.noSpace ' ' (by decide),
    List.filter_cons_of_pos (by simpa using h.nonempty)]
  rfl

section Blanks

variable {b : Str}

theorem IsBlank.not_mem (h : IsBlank s) (hc : isSpace c = false) : c ∉ s := fun hmem =>
  Bool.false_ne_true (hc.symm.trans (h c hmem))

theorem strip_blank_append (hb : IsBlank b) (s : Str) : strip (b ++ s) = strip s := by
  rw [strip, List.dropWhile_append_of_pos hb, strip]

theorem strip_append_blank (hb : IsBlank b) (s : Str) : strip (s ++ b) = strip s := by
  have hreverse : ∀ c ∈ b.reverse, isSpace c = true := fun c hc => hb c (List.mem_reverse.mp hc)
  rw [strip, List.dropWhile_append, strip]
  split
  next hs =>
    rw [List.isEmpty_iff.mp hs, List.dropWhile_eq_nil_iff.mpr hb]
  next => rw [List.reverse_append, List.dropWhile_append_of_pos hreverse]

end Blanks

end TrtShim.Str
