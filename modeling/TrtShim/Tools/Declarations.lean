import Mathlib
import TrtShim.Containers.Lists
import TrtShim.Text.Lines
import TrtShim.Text.Regex
import TrtShim.Tools.Stubs

/-! # Declarations of pure virtual methods

The stub generator takes a declaration apart with a regular expression. On a
declaration of a pure virtual method it captures the return type, the name and the
parameters that were declared, however many other ways to match there are. It does
not match a pure virtual destructor, which has no return type, nor a declaration
that has `= 0` in it but does not end there.
-/

namespace TrtShim.Tools

open Str Regex

/-- `\w` for an ASCII character. -/
def isWordChar (c : Char) : Bool := c.isAlphanum || c = '_'

/-- `.` -/
def notNewline (c : Char) : Bool := c ≠ '\n'

/-- A sequence of expressions. -/
def inTurn (rs : List Regex) : Regex := rs.foldr seq empty

/-- `~?\w+`. -/
def nameRe : Regex := seq (opt (lit ['~'])) (plus isWordChar true)

/-- `(?:const\s*)?(?:noexcept\s*)?`. -/
def qualsRe : Regex := seq (opt (seq (lit (str "const")) (many isSpace true)))
  (opt (seq (lit (str "noexcept")) (many isSpace true)))

/-- `DECL_RE` after the parameters. -/
def declQuals : Regex := inTurn [many isSpace true, group (str "quals") qualsRe,
  many isSpace true, lit ['='], many isSpace true, lit ['0'], atEnd]

/-- `DECL_RE` after the return type. -/
def declTail : Regex := inTurn [plus isSpace true, group (str "name") nameRe, many isSpace true,
  lit ['('], group (str "args") (many notNewline true), lit [')'], declQuals]

/-- `DECL_RE`. -/
def declRe : Regex := seq (lit (str "virtual")) (seq (plus isSpace true)
  (seq (group (str "ret") (plus notNewline false)) declTail))

/-- A string of one line that neither starts nor ends with a blank. -/
structure IsTrimmed (s : Str) : Prop where
  head : ∀ c ∈ s.head?, isSpace c = false
  last : ∀ c ∈ s.getLast?, isSpace c = false
  line : '\n' ∉ s

/-- The declaration of a pure virtual method. -/
structure Declaration where
  ret : Str
  destructor : Bool
  word : Str
  params : List Parameter
  isConst : Bool
  isNoexcept : Bool
  ret_nonempty : ret ≠ []
  ret_trimmed : IsTrimmed ret
  ret_paren : '(' ∉ ret
  word_nonempty : word ≠ []
  word_chars : ∀ c ∈ word, isWordChar c = true
  params_line : '\n' ∉ joined (params.map Parameter.text)

namespace Declaration

variable (d : Declaration)

def name : Str := if d.destructor then '~' :: d.word else d.word

/-- The parameters as they are written. -/
def args : Str := joined (d.params.map Parameter.text)

/-- The qualifiers. -/
def quals : Str :=
  match d.isConst, d.isNoexcept with
  | false, false => []
  | true, false => str "const"
  | false, true => str "noexcept"
  | true, true => str "const noexcept"

/-- What follows the parameters. -/
def afterArgs : Str := (if d.quals = [] then [] else ' ' :: d.quals) ++ str " = 0"

/-- The declaration after its return type. -/
def tail : Str := ' ' :: (d.name ++ '(' :: (d.args ++ ')' :: d.afterArgs))

/-- The declaration as it is written. -/
def text : Str := str "virtual" ++ ' ' :: (d.ret ++ d.tail)

end Declaration

/-- The declaration of a pure virtual destructor. -/
structure PureDestructor where
  word : Str
  isNoexcept : Bool
  word_chars : ∀ c ∈ word, isWordChar c = true

/-- The declaration as it is written. -/
def PureDestructor.text (d : PureDestructor) : Str :=
  str "virtual ~" ++ d.word ++ str "()" ++ (if d.isNoexcept then str " noexcept" else []) ++
    str " = 0"

/-- The declaration of a virtual method that is not pure, with `= 0` in it. -/
structure NotPure where
  text : Str
  head : str "virtual" <+: text
  zero : str "= 0" <:+: text
  last : text.getLast? ≠ some '0'
  line : '\n' ∉ text

section Tail

variable {g : Groups} {s s' : Str} {d : Declaration}

theorem isSpace_of_isWordChar {c : Char} (h : isWordChar c = true) : isSpace c = false := by
  have hcode : (48 ≤ c.toNat ∧ c.toNat ≤ 57) ∨ (65 ≤ c.toNat ∧ c.toNat ≤ 90) ∨ c.toNat = 95 ∨
      (97 ≤ c.toNat ∧ c.toNat ≤ 122) := by
    simp only [isWordChar, Char.isAlphanum, Char.isAlpha, Char.isUpper, Char.isLower, Char.isDigit,
      Bool.or_eq_true, Bool.and_eq_true, decide_eq_true_eq, ge_iff_le, UInt32.le_iff_toNat_le] at h
    rcases h with ((h | h) | h) | rfl
    · exact .inr (.inl h)
    · exact .inr (.inr (.inr h))
    · exact .inl h
    · exact .inr (.inr (.inl rfl))
  simp only [isSpace, Bool.or_eq_false_iff, Bool.and_eq_false_iff, decide_eq_false_iff_not,
    List.contains_eq_mem, List.mem_cons, List.not_mem_nil, or_false]
  omega

/-- One word, perhaps after a tilde. -/
def IsName (s : Str) : Prop :=
  ∃ w, (s = w ∨ s = '~' :: w) ∧ w ≠ [] ∧ ∀ c ∈ w, isWordChar c = true

/-- Qualifiers contain neither an `=` nor a parenthesis. -/
structure IsQuals (s : Str) : Prop where
  eq : '=' ∉ s
  paren : ')' ∉ s

theorem IsQuals.append {t : Str} (hs : IsQuals s) (ht : IsQuals t) : IsQuals (s ++ t) :=
  ⟨fun h => (List.mem_append.mp h).elim hs.eq ht.eq,
    fun h => (List.mem_append.mp h).elim hs.paren ht.paren⟩

theorem isQuals_of_isBlank (h : IsBlank s) : IsQuals s := ⟨h.not_mem rfl, h.not_mem rfl⟩

theorem mem_nameRe (h : (g, s') ∈ nameRe.results s) : g = [] ∧ ∃ w, IsName w ∧ s = w ++ s' := by
  obtain ⟨g₁, s₁, g₂, htilde, hword, rfl⟩ := mem_seq.mp h
  obtain ⟨rfl, w, hne, hw, rfl⟩ := mem_plus.mp hword
  rcases mem_opt.mp htilde with htilde | ⟨rfl, rfl⟩
  · obtain ⟨rfl, rfl⟩ := mem_lit.mp htilde
    exact ⟨rfl, '~' :: w, ⟨w, .inr rfl, hne, hw⟩, rfl⟩
  · exact ⟨rfl, w, ⟨w, .inl rfl, hne, hw⟩, rfl⟩

theorem mem_qualifier {l : Str} (hl : IsQuals l)
    (h : (g, s') ∈ (opt (seq (lit l) (many isSpace true))).results s) :
    g = [] ∧ ∃ w, IsQuals w ∧ s = w ++ s' := by
  rcases mem_opt.mp h with h | ⟨rfl, rfl⟩
  · obtain ⟨g₁, s₁, g₂, hlit, hmany, rfl⟩ := mem_seq.mp h
    obtain ⟨rfl, rfl⟩ := mem_lit.mp hlit
    obtain ⟨rfl, w, hw, rfl⟩ := mem_many.mp hmany
    exact ⟨rfl, l ++ w, hl.append (isQuals_of_isBlank hw), (List.append_assoc l w s').symm⟩
  · exact ⟨rfl, [], ⟨List.not_mem_nil, List.not_mem_nil⟩, rfl⟩

theorem mem_qualsRe (h : (g, s') ∈ qualsRe.results s) :
    g = [] ∧ ∃ w, IsQuals w ∧ s = w ++ s' := by
  obtain ⟨g₁, s₁, g₂, hconst, hnoexcept, rfl⟩ := mem_seq.mp h
  obtain ⟨rfl, w, hw, rfl⟩ := mem_qualifier ⟨by decide, by decide⟩ hconst
  obtain ⟨rfl, w', hw', rfl⟩ := mem_qualifier ⟨by decide, by decide⟩ hnoexcept
  exact ⟨rfl, w ++ w', hw.append hw', (List.append_assoc w w' s').symm⟩

/-- What the expression after the parameters can match: the qualifiers between blanks, an `=`, and
an end without a parenthesis, which is a `0`, perhaps before a newline. -/
theorem mem_declQuals (h : (g, s') ∈ declQuals.results s) :
    ∃ b q b' e, s = (b ++ q ++ b') ++ '=' :: e ∧ IsBlank b ∧ IsQuals q ∧ IsBlank b' ∧ ')' ∉ e ∧
      (e.getLast? = some '0' ∨ e.getLast? = some '\n') ∧ g = [(str "quals", q)] := by
  simp only [declQuals, inTurn, List.foldr, mem_seq, mem_many, mem_lit, mem_atEnd, mem_empty] at h
  obtain ⟨-, s₁, g₁, ⟨rfl, b, hb, rfl⟩, ⟨g₂, s₂, g₃, hquals, ⟨-, s₃, g₄, ⟨rfl, b', hb', rfl⟩,
    ⟨-, s₄, g₅, ⟨rfl, rfl⟩, ⟨-, s₅, g₆, ⟨rfl, b'', hb'', rfl⟩, ⟨-, s₆, g₇, ⟨rfl, rfl⟩,
    ⟨-, s₇, g₈, ⟨rfl, rfl, hend⟩, ⟨rfl, rfl⟩, rfl⟩, rfl⟩, rfl⟩, rfl⟩, rfl⟩, rfl⟩, rfl⟩ := h
  obtain ⟨q, hq, rfl, rfl⟩ := mem_group_of (fun _ _ => mem_qualsRe) hquals
  refine ⟨b, q, b', b'' ++ '0' :: s₆, by simp, hb, hq, hb', ?_, ?_, rfl⟩
  · rw [List.mem_append, List.mem_cons, not_or, not_or]
    refine ⟨IsBlank.not_mem hb'' rfl, by decide, ?_⟩
    rcases hend with rfl | rfl
    · exact List.not_mem_nil
    · decide
  · rw [List.getLast?_append_of_ne_nil _ (List.cons_ne_nil _ _)]
    rcases hend with rfl | rfl
    · exact .inl rfl
    · exact .inr rfl

/-- What the expression after the return type can match. -/
theorem mem_declTail (h : (g, s') ∈ declTail.results s) :
    ∃ b nm b' as g' rest, s = (b ++ nm ++ b') ++ '(' :: (as ++ ')' :: rest) ∧ b ≠ [] ∧ IsBlank b ∧
      IsName nm ∧ IsBlank b' ∧ (g', s') ∈ declQuals.results rest ∧
      g = (str "name", nm) :: (str "args", as) :: g' := by
  simp only [declTail, inTurn, List.foldr, mem_seq, mem_plus, mem_lit, mem_many, mem_empty] at h
  obtain ⟨-, s₁, g₁, ⟨rfl, b, hne, hb, rfl⟩, ⟨g₂, s₂, g₃, hname, ⟨-, s₃, g₄, ⟨rfl, b', hb', rfl⟩,
    ⟨-, s₄, g₅, ⟨rfl, rfl⟩, ⟨g₆, s₅, g₇, hargs, ⟨-, s₆, g₈, ⟨rfl, rfl⟩,
    ⟨g₉, s₇, g₁₀, hquals, ⟨rfl, rfl⟩, rfl⟩, rfl⟩, rfl⟩, rfl⟩, rfl⟩, rfl⟩, rfl⟩ := h
  obtain ⟨nm, hnm, rfl, rfl⟩ := mem_group_of (fun _ _ => mem_nameRe) hname
  obtain ⟨as, -, rfl, rfl⟩ := mem_group_of (fun _ _ => mem_many.mp) hargs
  exact ⟨b, nm, b', as, g₉, s₆, by simp, hne, hb, hnm, hb', hquals, by simp⟩

/-- What the expression can match: a return type stands before the name, and the end is a `0`,
perhaps before a newline. -/
theorem mem_declRe (h : (g, s') ∈ declRe.results s) :
    ∃ b ret b₁ u rest, s = str "virtual" ++ ((b ++ (ret ++ (b₁ ++ u))) ++ '(' :: rest) ∧
      b ≠ [] ∧ IsBlank b ∧ ret ≠ [] ∧ b₁ ≠ [] ∧ IsBlank b₁ ∧
      (rest.getLast? = some '0' ∨ rest.getLast? = some '\n') := by
  simp only [declRe, mem_seq, mem_lit, mem_plus, mem_group] at h
  obtain ⟨-, s₁, g₁, ⟨rfl, rfl⟩, ⟨-, s₂, g₂, ⟨rfl, b, hne, hb, rfl⟩,
    ⟨-, s₃, g₃, ⟨-, ret, ⟨rfl, w, hret, -, rfl⟩, hw, rfl⟩, htail, rfl⟩, rfl⟩, rfl⟩ := h
  obtain rfl : w = ret := List.append_cancel_right hw
  obtain ⟨b₁, nm, b₂, as, g', rest, rfl, hne₁, hb₁, -, -, hquals, -⟩ := mem_declTail htail
  obtain ⟨b₃, q, b₄, e, rfl, -, -, -, -, hlast, -⟩ := mem_declQuals hquals
  have hend : (as ++ ')' :: ((b₃ ++ q ++ b₄) ++ '=' :: e)).getLast? = e.getLast? := by
    have hene : e ≠ [] := by
      rintro rfl
      rcases hlast with h | h
      · cases h
      · cases h
    calc
      _ = ((as ++ ')' :: (b₃ ++ q ++ b₄) ++ ['=']) ++ e).getLast? := by
        simp only [List.append_assoc, List.cons_append, List.nil_append]
      _ = e.getLast? := List.getLast?_append_of_ne_nil _ hene
  refine ⟨b, w, b₁, nm ++ b₂, as ++ ')' :: ((b₃ ++ q ++ b₄) ++ '=' :: e), ?_, hne, hb, hret, hne₁,
    hb₁, hend ▸ hlast⟩
  simp only [List.append_assoc]

/-- A declaration that does not end with `0` is not matched. -/
theorem NotPure.first_declRe (m : NotPure) : declRe.first m.text = none := by
  refine Option.eq_none_iff_forall_not_mem.mpr fun r hr => ?_
  obtain ⟨b, ret, b₁, u, rest, htext, -, -, -, -, -, hlast⟩ := mem_declRe (List.mem_of_head? hr)
  have hne : rest ≠ [] := by
    rintro rfl
    rcases hlast with h | h <;> exact absurd h (by simp)
  have hend : m.text.getLast? = rest.getLast? := by
    rw [htext, List.getLast?_append_of_ne_nil _ (by simp),
      List.getLast?_append_of_ne_nil _ (List.cons_ne_nil _ _), List.getLast?_cons_of_ne_nil hne]
  rcases hlast with h | h
  · exact m.last (hend.trans h)
  · exact m.line (List.mem_of_getLast? (hend.trans h))

/-- A destructor has no return type, so it is not matched. -/
theorem PureDestructor.first_declRe (d : PureDestructor) : declRe.first d.text = none := by
  refine Option.eq_none_iff_forall_not_mem.mpr fun r hr => ?_
  obtain ⟨b, ret, b₁, u, rest, htext, hne, hb, hret, hne₁, hb₁, -⟩ :=
    mem_declRe (List.mem_of_head? hr)
  let after : Str := ')' :: (if d.isNoexcept then str " noexcept" else []) ++ str " = 0"
  have hafter : '(' ∉ after := by
    simp only [after]
    cases d.isNoexcept <;> decide
  have hword : '(' ∉ ' ' :: '~' :: d.word := by
    simp only [List.mem_cons, not_or]
    exact ⟨by decide, by decide, fun hmem => absurd (d.word_chars _ hmem) (by decide)⟩
  have hd : d.text = str "virtual" ++ ((' ' :: '~' :: d.word) ++ '(' :: after) := by
    simp [PureDestructor.text, after, str]
  have hsplit := List.append_cancel_left (htext.symm.trans hd)
  -- The only opening parenthesis is the one behind the name.
  have hparen : '(' ∉ b ++ (ret ++ (b₁ ++ u)) := by
    have hcount := congrArg (List.count '(') hsplit
    simp only [List.count_append, List.count_cons_self, List.count_eq_zero.mpr hword,
      List.count_eq_zero.mpr hafter] at hcount
    rw [← List.count_eq_zero]
    simp only [List.count_append]
    omega
  obtain ⟨hbefore, -, -⟩ := Lists.split_first (p := (· = '('))
    (fun c hc he => hparen (he ▸ hc)) (fun c hc he => hword (he ▸ hc)) rfl rfl hsplit
  obtain ⟨x, b, rfl⟩ := List.exists_cons_of_ne_nil hne
  obtain ⟨y, ys, rfl⟩ := List.exists_cons_of_ne_nil hne₁
  have hy : y ∈ '~' :: d.word := by
    rw [← (List.cons.inj hbefore).2]
    simp
  have hspace : isSpace y = true := hb₁ y List.mem_cons_self
  rcases List.mem_cons.mp hy with rfl | hy
  · exact absurd hspace (by decide)
  · rw [isSpace_of_isWordChar (d.word_chars y hy)] at hspace
    exact Bool.false_ne_true hspace

end Tail

namespace Declaration

variable {d : Declaration} {g : Groups} {s s' u : Str}

theorem isName_name : IsName d.name := by
  refine ⟨d.word, ?_, d.word_nonempty, d.word_chars⟩
  rw [name]
  cases d.destructor
  · exact .inl rfl
  · exact .inr rfl

end Declaration

section Names

variable {nm : Str}

theorem IsName.ne_nil (h : IsName nm) : nm ≠ [] := by
  obtain ⟨w, rfl | rfl, hne, -⟩ := h
  · exact hne
  · exact List.cons_ne_nil _ _

theorem IsName.isSpace (h : IsName nm) : ∀ c ∈ nm, ¬ isSpace c = true := by
  obtain ⟨w, rfl | rfl, -, hw⟩ := h
  · exact fun c hc => Bool.eq_false_iff.mp (isSpace_of_isWordChar (hw c hc))
  · refine List.forall_mem_cons.mpr ⟨by decide, fun c hc => ?_⟩
    exact Bool.eq_false_iff.mp (isSpace_of_isWordChar (hw c hc))

theorem IsName.paren (h : IsName nm) : '(' ∉ nm := by
  obtain ⟨w, rfl | rfl, -, hw⟩ := h
  · exact fun hmem => absurd (hw _ hmem) (by decide)
  · rw [List.mem_cons, not_or]
    exact ⟨by decide, fun hmem => absurd (hw _ hmem) (by decide)⟩

/-- A name stands behind the last blank. -/
theorem name_unique {b b' u nm' : Str} (hne : b ≠ []) (hb : IsBlank b) (hnm : IsName nm)
    (hb' : IsBlank b') (hnm' : IsName nm') (h : b ++ nm ++ b' = u ++ ' ' :: nm') :
    IsBlank u ∧ nm = nm' := by
  rcases List.eq_nil_or_concat b' with rfl | ⟨b', y, rfl⟩
  · obtain ⟨b, x, rfl⟩ := (List.eq_nil_or_concat b).resolve_left hne
    have hsplit : b ++ x :: nm = u ++ ' ' :: nm' := by simpa using h
    obtain ⟨rfl, -, rfl⟩ := Lists.split_last (p := fun c => Str.isSpace c = true) hnm.isSpace
      hnm'.isSpace (hb x (by simp)) rfl hsplit
    exact ⟨fun c hc => hb c (by simp [hc]), rfl⟩
  · have hsplit : (b ++ nm ++ b') ++ y :: [] = u ++ ' ' :: nm' := by simpa using h
    obtain ⟨-, -, he⟩ := Lists.split_last (p := fun c => Str.isSpace c = true) (by simp)
      hnm'.isSpace (hb' y (by simp)) rfl hsplit
    exact absurd he.symm hnm'.ne_nil

end Names

namespace Declaration

variable {d : Declaration} {g : Groups} {s s' u : Str}

/-- The text between the parameters and the `=`. -/
def beforeEq (d : Declaration) : Str := (if d.quals = [] then [] else ' ' :: d.quals) ++ [' ']

theorem beforeEq_spec : '=' ∉ d.beforeEq ∧ strip d.beforeEq = d.quals ∧
    d.afterArgs = d.beforeEq ++ '=' :: str " 0" ∧ ')' ∉ d.afterArgs := by
  rw [beforeEq, afterArgs, quals]
  cases d.isConst <;> cases d.isNoexcept <;> decide

/-- However the rest of the expression matches a declaration, it captures the name, the parameters
and the qualifiers. It starts at the name, or at blanks before it. -/
theorem mem_declTail_tail (hu : '(' ∉ u) (h : (g, s') ∈ declTail.results (u ++ d.tail)) :
    IsBlank u ∧ ∃ q, strip q = d.quals ∧
      g = [(str "name", d.name), (str "args", d.args), (str "quals", q)] := by
  obtain ⟨b, nm, b', as, g', rest, hs, hne, hb, hnm, hb', hquals, rfl⟩ := mem_declTail h
  obtain ⟨b₁, q, b₂, e, rfl, hb₁, hq, hb₂, he, -, rfl⟩ := mem_declQuals hquals
  obtain ⟨heq, hstrip, hafter, hparen⟩ := d.beforeEq_spec
  have htext : (b ++ nm ++ b') ++ '(' :: (as ++ ')' :: ((b₁ ++ q ++ b₂) ++ '=' :: e)) =
      (u ++ ' ' :: d.name) ++ '(' :: (d.args ++ ')' :: d.afterArgs) := by
    rw [← hs, tail]
    simp
  have hbefore : ∀ c ∈ b ++ nm ++ b', ¬ c = '(' := by
    rintro c hc rfl
    rcases List.mem_append.mp hc with hc | hc
    · rcases List.mem_append.mp hc with hc | hc
      · exact hb.not_mem rfl hc
      · exact hnm.paren hc
    · exact hb'.not_mem rfl hc
  have hbefore' : ∀ c ∈ u ++ ' ' :: d.name, ¬ c = '(' := by
    rintro c hc rfl
    rcases List.mem_append.mp hc with hc | hc
    · exact hu hc
    · rcases List.mem_cons.mp hc with hc | hc
      · exact absurd hc (by decide)
      · exact d.isName_name.paren hc
  obtain ⟨hname, -, hargs⟩ := Lists.split_first (p := (· = '(')) hbefore hbefore' rfl rfl htext
  obtain ⟨hblank, rfl⟩ := name_unique hne hb hnm hb' d.isName_name hname
  have hquals : IsQuals (b₁ ++ q ++ b₂) :=
    ((isQuals_of_isBlank hb₁).append hq).append (isQuals_of_isBlank hb₂)
  have hclose : ∀ c ∈ (b₁ ++ q ++ b₂) ++ '=' :: e, ¬ c = ')' := by
    rintro c hc rfl
    rcases List.mem_append.mp hc with hc | hc
    · exact hquals.paren hc
    · rcases List.mem_cons.mp hc with hc | hc
      · exact absurd hc (by decide)
      · exact he hc
  have hclose' : ∀ c ∈ d.afterArgs, ¬ c = ')' := fun c hc he => hparen (he ▸ hc)
  obtain ⟨rfl, -, hrest⟩ := Lists.split_last (p := (· = ')')) hclose hclose' rfl rfl hargs
  rw [hafter] at hrest
  have heq' : ∀ c ∈ b₁ ++ q ++ b₂, ¬ c = '=' := fun c hc he => hquals.eq (he ▸ hc)
  obtain ⟨hq', -, -⟩ := Lists.split_first (p := (· = '=')) heq' (fun c hc he => heq (he ▸ hc))
    rfl rfl hrest
  refine ⟨hblank, q, ?_, rfl⟩
  rw [← hstrip, ← hq', strip_append_blank hb₂, strip_blank_append hb₁]

theorem mem_nameRe_name (rest : Str) : ([], rest) ∈ nameRe.results (d.name ++ rest) := by
  have hword : ([], rest) ∈ (plus isWordChar true).results (d.word ++ rest) :=
    mem_plus.mpr ⟨rfl, d.word, d.word_nonempty, d.word_chars, rfl⟩
  rw [name]
  cases d.destructor
  · exact mem_seq.mpr ⟨[], d.word ++ rest, [], mem_opt.mpr (.inr ⟨rfl, rfl⟩), hword, rfl⟩
  · have htilde : ([], d.word ++ rest) ∈ (lit ['~']).results ('~' :: d.word ++ rest) :=
      mem_lit.mpr ⟨rfl, rfl⟩
    exact mem_seq.mpr ⟨[], d.word ++ rest, [], mem_opt.mpr (.inl htilde), hword, rfl⟩

/-- The expression can match the declaration. -/
theorem declTail_tail_ne_nil : declTail.results d.tail ≠ [] := by
  have hquals : declQuals.results d.afterArgs ≠ [] := by
    rw [afterArgs, quals]
    cases d.isConst <;> cases d.isNoexcept <;> decide
  obtain ⟨⟨g, s'⟩, hmem⟩ := List.exists_mem_of_ne_nil _ hquals
  have hargs : ∀ c ∈ d.args, notNewline c = true := fun c hc =>
    decide_eq_true fun he => d.params_line (he ▸ hc)
  exact List.ne_nil_of_mem (mem_seq.mpr
    ⟨[], d.name ++ '(' :: (d.args ++ ')' :: d.afterArgs), _,
      mem_plus.mpr ⟨rfl, [' '], by simp, by simp [isSpace], rfl⟩, mem_seq.mpr
    ⟨_, '(' :: (d.args ++ ')' :: d.afterArgs), _,
      mem_group.mpr ⟨[], d.name, mem_nameRe_name _, rfl, rfl⟩, mem_seq.mpr
    ⟨[], '(' :: (d.args ++ ')' :: d.afterArgs), _, mem_many.mpr ⟨rfl, [], nofun, rfl⟩, mem_seq.mpr
    ⟨[], d.args ++ ')' :: d.afterArgs, _, mem_lit.mpr ⟨rfl, rfl⟩, mem_seq.mpr
    ⟨_, ')' :: d.afterArgs, _,
      mem_group.mpr ⟨[], d.args, mem_many.mpr ⟨rfl, d.args, hargs, rfl⟩, rfl, rfl⟩, mem_seq.mpr
    ⟨[], d.afterArgs, _, mem_lit.mpr ⟨rfl, rfl⟩, mem_seq.mpr
    ⟨g, s', [], hmem, mem_empty.mpr ⟨rfl, rfl⟩, rfl⟩, rfl⟩, rfl⟩, rfl⟩, rfl⟩, rfl⟩, rfl⟩)

/-- The expression captures the parts of a declaration. -/
theorem first_declRe (d : Declaration) : ∃ q s', strip q = d.quals ∧
    declRe.first d.text = some ([(str "ret", d.ret), (str "name", d.name), (str "args", d.args),
      (str "quals", q)], s') := by
  have hline : ∀ c ∈ d.ret, notNewline c = true := fun c hc =>
    decide_eq_true fun he => d.ret_trimmed.line (he ▸ hc)
  -- A shorter return type would leave a character that is not blank before the name.
  have hshorter : ∀ u v, d.ret = u ++ v → u ≠ [] → v ≠ [] →
      declTail.results (v ++ d.tail) = [] := by
    intro u v huv _ hv
    refine List.eq_nil_iff_forall_not_mem.mpr fun m hm => ?_
    have hparen : '(' ∉ v := fun hmem =>
      d.ret_paren (huv ▸ List.mem_append_right u hmem)
    obtain ⟨hblank, -⟩ := mem_declTail_tail hparen hm
    obtain ⟨c, hc⟩ := Option.ne_none_iff_exists'.mp (mt List.getLast?_eq_none_iff.mp hv)
    have hlast := d.ret_trimmed.last c (by rw [huv, List.getLast?_append_of_ne_nil _ hv, hc]; rfl)
    exact Bool.false_ne_true (hlast.symm.trans (hblank c (List.mem_of_getLast? hc)))
  obtain ⟨⟨g, s'⟩, hfirst⟩ : ∃ m, declTail.first d.tail = some m :=
    Option.isSome_iff_exists.mp (List.isSome_head?.mpr declTail_tail_ne_nil)
  obtain ⟨-, q, hq, rfl⟩ := mem_declTail_tail (u := []) (by simp) (List.mem_of_head? hfirst)
  refine ⟨q, s', hq, ?_⟩
  have hhead : ∀ c ∈ (d.ret ++ d.tail).head?, isSpace c = false := by
    rw [List.head?_append_of_ne_nil _ d.ret_nonempty]
    exact d.ret_trimmed.head
  rw [declRe, text, first_seq_of_singleton (results_lit _ _),
    first_seq_of_singleton (results_plus_of_head rfl hhead),
    first_lazy d.ret_nonempty hline hshorter declTail_tail_ne_nil, hfirst, Option.map_some]

end Declaration

end TrtShim.Tools
