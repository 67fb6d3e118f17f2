import Mathlib.Data.Char
import Mathlib.Data.List.Lex
import Mathlib.Data.List.Sort
import Mathlib.Data.Nat.Notation

/-! # Python strings

Operations of `str` as functions on lists of code points. Strings are compared code
point by code point, so numerals are sorted by their first digits and not by their
values.
-/

namespace TrtShim

/-- A Python string, by its code points. -/
abbrev Str := List Char

/-- A string literal. -/
def str (s : String) : Str := s.toList

namespace Str

/-- `str(n)`. -/
def decimal (n : ℕ) : Str := Nat.toDigits 10 n

/-- `sorted`. -/
def sorted (l : List Str) : List Str := l.insertionSort (· ≤ ·)

/-- `str.isspace` of a code point. -/
def isSpace (c : Char) : Bool :=
  let n := c.toNat
  (9 ≤ n && n ≤ 13) || (28 ≤ n && n ≤ 32) || (8192 ≤ n && n ≤ 8202) ||
    [133, 160, 5760, 8232, 8233, 8239, 8287, 12288].contains n

/-- The code points that end a line. -/
def isLineEnd (c : Char) : Bool :=
  [10, 11, 12, 13, 28, 29, 30, 133, 8232, 8233].contains c.toNat

/-- `s.split()`. -/
def split (s : Str) : List Str := (s.splitOnP isSpace).filter (· ≠ [])

/-- `s.strip()`. -/
def strip (s : Str) : Str := ((s.dropWhile isSpace).reverse.dropWhile isSpace).reverse

/-- The lines of a string after the current line, and perhaps a carriage return before it. -/
def linesFrom : Bool → Str → Str → List Str
  | _, line, [] => if line = [] then [] else [line]
  | cr, line, c :: cs =>
    if cr ∧ c.toNat = 10 then linesFrom false line cs
    else if isLineEnd c then line :: linesFrom (c.toNat = 13) [] cs
    else linesFrom false (line ++ [c]) cs

/-- `s.splitlines()`. -/
def splitlines (s : Str) : List Str := linesFrom false [] s

/-- `os.path.join`. -/
def joinPath (dir file : Str) : Str :=
  if file.head? = some '/' then file
  else if dir = [] ∨ dir.getLast? = some '/' then dir ++ file
  else dir ++ '/' :: file

theorem decimal_injective : Function.Injective decimal := fun m n h => by
  have hm : Nat.ofDigitChars 10 (decimal m) 0 = m := Nat.ofDigitChars_ten_toDigits
  rw [← hm, h]
  exact Nat.ofDigitChars_ten_toDigits

theorem joinPath_injective {dir file file' : Str} (h : file.head? ≠ some '/')
    (h' : file'.head? ≠ some '/') (he : joinPath dir file = joinPath dir file') : file = file' := by
  rw [joinPath, joinPath, if_neg h, if_neg h'] at he
  split at he
  next => exact List.append_cancel_left he
  next => exact (List.cons.inj (List.append_cancel_left he)).2

theorem zero_le_of_mem_decimal {n : ℕ} {c : Char} (h : c ∈ decimal n) : '0' ≤ c := by
  have hdigit : c.isDigit = true := Nat.isDigit_of_mem_toDigits (by decide) (by decide) h
  rw [Char.isDigit, Bool.and_eq_true, decide_eq_true_iff] at hdigit
  exact hdigit.1

theorem append_le_append (s : Str) {t t' : Str} (h : t ≤ t') : s ++ t ≤ s ++ t' := by
  induction s with
  | nil => exact h
  | cons c s ih => exact List.cons_le_cons c ih

/-- Before a suffix that sorts before all digits, no numeral sorts before zero. -/
theorem decimal_zero_le {c : Char} (hc : c < '0') (suffix : Str) (n : ℕ) :
    decimal 0 ++ c :: suffix ≤ decimal n ++ c :: suffix := by
  have hdigits := fun x (hx : x ∈ decimal n) => zero_le_of_mem_decimal hx
  rcases hn : decimal n with _ | ⟨x, xs⟩
  · exact absurd hn Nat.toDigits_ne_nil
  · rw [hn, List.forall_mem_cons] at hdigits
    obtain ⟨hx, hxs⟩ := hdigits
    rcases hx.lt_or_eq with hlt | rfl
    · exact le_of_lt (List.Lex.rel hlt)
    · apply List.cons_le_cons
      cases xs with
      | nil => exact le_refl _
      | cons y ys => exact le_of_lt (List.Lex.rel (hc.trans_le (hxs y List.mem_cons_self)))

/-- Sorting is determined by what is sorted. -/
theorem sorted_eq {l l' : List Str} (hp : l'.Perm l) (hs : l'.Pairwise (· ≤ ·)) :
    sorted l = l' := by
  apply List.Perm.eq_of_pairwise _ (List.pairwise_insertionSort _ l) hs
  · exact (List.perm_insertionSort _ l).trans hp.symm
  · intro a b _ _ hab hba
    exact le_antisymm hab hba

/-- The numbers below a bound in the order of the strings that they stand for. -/
def byName (file : ℕ → Str) (m : ℕ) : List ℕ :=
  (List.range m).insertionSort fun a b => file a ≤ file b

section ByName

variable {file : ℕ → Str} {m : ℕ}

theorem perm_byName : (byName file m).Perm (List.range m) := List.perm_insertionSort _ _

theorem length_byName : (byName file m).length = m :=
  perm_byName.length_eq.trans List.length_range

theorem mem_byName {k : ℕ} : k ∈ byName file m ↔ k < m :=
  perm_byName.mem_iff.trans List.mem_range

theorem pairwise_byName : ((byName file m).map file).Pairwise (· ≤ ·) := by
  have htotal : Std.Total fun a b => file a ≤ file b := ⟨fun a b => le_total _ _⟩
  have htrans : IsTrans ℕ fun a b => file a ≤ file b := ⟨fun _ _ _ => le_trans⟩
  exact List.pairwise_map.mpr (List.pairwise_insertionSort _ _)

/-- Numbers are in the order of their strings exactly if sorting leaves them in place. -/
theorem byName_eq_range_iff :
    byName file m = List.range m ↔ (List.range m).Pairwise fun a b => file a ≤ file b := by
  constructor
  · intro h
    rw [← h]
    exact List.pairwise_map.mp pairwise_byName
  · exact List.Pairwise.insertionSort_eq

end ByName

end Str

end TrtShim
