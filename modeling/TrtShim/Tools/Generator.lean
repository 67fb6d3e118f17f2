import TrtShim.Tools.Declarations

/-! # The stub generator

For each class of the header the generator writes an override of every pure virtual
method that is not implemented by hand. Each such method is overridden once, in the
order of the declarations, with the parameters that were declared but without their
default arguments. A class with a pure virtual destructor, or with `= 0` elsewhere in
the declaration of a virtual method, is not generated: the first such member is
reported.
-/

namespace TrtShim.Tools

open Str Regex

/-! ## From the header to declarations -/

/-- `//[^\n]*`. -/
def lineComment : Regex := inTurn [lit (str "//"), many notNewline true]

/-- `/\*.*?\*/`, where the dot also stands for a newline. -/
def blockComment : Regex :=
  inTurn [lit (str "/*"), group [] (many (fun _ => true) false), lit (str "*/")]

/-- `\{(.*?)\n\};`, where the dot also stands for a newline. -/
def bodyRe : Regex :=
  inTurn [lit ['\x7b'], group (str "body") (many (fun _ => true) false), lit (str "\n\x7d;")]

/-- `\bclass X\b[^{]*`, without its first boundary, and the expression for the body. -/
def classRe (cls : Str) : Regex := seq (lit (str "class " ++ cls))
  (seq (notAhead isWordChar) (seq (many (· ≠ '\x7b') true) bodyRe))

/-- `class_body`. -/
def classBody (text cls : Str) : Option Str :=
  (search (fun prev => !prev.any isWordChar) (classRe cls) none text).map fun m =>
    captured m.1 (str "body")

/-- `" ".join(s.split())`. -/
def collapse (s : Str) : Str := [' '].intercalate (split s)

/-- A string from the first place on at which another one is found. -/
def fromFirst (w : Str) : Str → Option Str
  | [] => if w = [] then some [] else none
  | c :: cs => if w.isPrefixOf (c :: cs) then some (c :: cs) else fromFirst w cs

/-- The text of a class without comments. -/
def uncomment (body : Str) : Str := erase blockComment 0 (erase lineComment 0 body)

/-- What the loop of `split_decls` yields for a chunk. -/
def declOf (chunk : Str) : Option Str :=
  let chunk := collapse chunk
  if (fromFirst (str "= 0") chunk).isNone then none else fromFirst (str "virtual") chunk

/-- `split_decls`. -/
def splitDecls (body : Str) : List Str := ((uncomment body).splitOn ';').filterMap declOf

/-! ## From declarations to overrides -/

/-- The types for which a stub returns `0`. -/
def numericRe : Regex :=
  alt (seq (opt (seq (lit (str "unsigned")) (plus isSpace true)))
      (alt (lit (str "int")) (alt (lit (str "short")) (alt (lit (str "long")) (lit (str "char"))))))
    (alt (inTurn [opt (lit ['u']), lit (str "int"),
        alt (lit ['8']) (alt (lit (str "16")) (alt (lit (str "32")) (lit (str "64")))),
        lit (str "_t")])
      (alt (lit (str "size_t")) (alt (lit (str "float")) (lit (str "double")))))

/-- `default_body`. -/
def defaultBody (ret qname : Str) : Str :=
  let ret := strip ret
  let log := str "::trtshim::trtshim_unimpl(\"" ++ qname ++ str "\"); "
  let returning (what : String) : Str := str "\x7b " ++ log ++ str what ++ str "\x7d"
  if '&' ∈ ret then str "\x7b ::trtshim::trtshim_die(\"" ++ qname ++ str "\"); \x7d"
  else if ret = str "void" then returning ""
  else if ret = str "bool" then returning "return false; "
  else if ret.getLast? = some '*' then returning "return nullptr; "
  else if numericRe.full ret then returning "return 0; "
  else returning "return \x7b\x7d; "

/-- The line that `gen_class` writes for a method. -/
def overrideLine (cls ret name args quals : Str) : Str :=
  let body := if name = str "getPImpl" then str "\x7b return this; \x7d"
    else defaultBody ret (cls ++ str "::" ++ name)
  ret ++ str " " ++ name ++ str "(" ++ args ++ str ")" ++ (if quals = [] then [] else str " ") ++
    quals ++ str " override " ++ body

/-- The first two lines of a file. -/
def heading (cls : Str) : List Str :=
  [str "// Generated by tools/gen_stubs.py from NvInferImpl.h -- do not edit.",
    str "// Stub overrides for " ++ cls ++ str " methods implemented by hand elsewhere."]

/-- The message of a `SystemExit`. -/
inductive GenError where
  | notFound (cls : Str)
  | notParsed (cls decl : Str)
  deriving DecidableEq

/-- The body of the loop of `gen_class`; no value stands for a method that is left out. -/
def genDecl (excl : List Str) (cls decl : Str) : Except GenError (Option Str) :=
  match declRe.first decl with
  | none => .error (.notParsed cls decl)
  | some (m, _) =>
    let name := captured m (str "name")
    if excl.contains name || ['~'].isPrefixOf name then .ok none
    else .ok (some (overrideLine cls (captured m (str "ret")) name
      (stripDefaults (captured m (str "args"))) (strip (captured m (str "quals")))))

/-- `gen_class`, for the methods that are implemented by hand. -/
def genClass (excl : List Str) (text cls : Str) : Except GenError Str := do
  let body ← (classBody text cls).elim (.error (.notFound cls)) .ok
  let lines ← (splitDecls body).mapM (genDecl excl cls)
  return ['\n'].intercalate (heading cls ++ lines.filterMap id) ++ ['\n']

/-- `EXCLUDE`. -/
def exclude : List (Str × List Str) :=
  [("VBuilder", ["createBuilderConfig", "createNetworkV2", "buildSerializedNetwork",
      "getLogger", "getPImpl", "createOptimizationProfile"]),
    ("VOptimizationProfile", ["setDimensions", "getDimensions", "isValid"]),
    ("VNetworkDefinition", ["getInput", "getOutput", "getNbInputs", "getNbOutputs",
      "getPImpl", "getName"]),
    ("VBuilderConfig", ["setFlag", "getFlag", "clearFlag", "getPImpl",
      "setInt8Calibrator", "getInt8Calibrator",
      "addOptimizationProfile", "getNbOptimizationProfiles"]),
    ("VRuntime", ["deserializeCudaEngine", "deserializeCudaEngineV2",
      "getLogger", "getPImpl"]),
    ("VCudaEngine", ["getNbIOTensors", "getIOTensorName", "getTensorShape",
      "getTensorDataType", "getTensorIOMode",
      "getTensorComponentsPerElement", "getTensorVectorizedDim",
      "getTensorBytesPerComponent", "createExecutionContext",
      "createExecutionContextWithoutDeviceMemory", "serialize",
      "getName", "getNbLayers", "getPImpl",
      "getNbOptimizationProfiles",
      "getTensorComponentsPerElementV2", "getTensorVectorizedDimV2"]),
    ("VExecutionContext", ["setTensorAddress", "executeV2", "enqueueV3",
      "setInputShape", "getPImpl",
      "setOptimizationProfileAsync", "getEngine",
      "getTensorShape", "getTensorStrides"]),
    ("VHostMemory", ["data", "size", "type"]),
    ("VTensor", ["getDimensions", "getName", "setName", "getType", "getPImpl"])].map
    fun c => (str c.1, c.2.map str)

/-- The loop of `main`: the files that it writes, and the message of the exit that ends it. -/
def genFiles (text : Str) : List (Str × List Str) → List (Str × Str) × Option GenError
  | [] => ([], none)
  | c :: classes =>
    match genClass c.2 text c.1 with
    | .error e => ([], some e)
    | .ok file =>
      let rest := genFiles text classes
      ((c.1 ++ str ".stubs.inc", file) :: rest.1, rest.2)

/-! ## Comments -/

/-- A part of the text of a class. -/
inductive Piece where
  | code (s : Str)
  | line (comment : Str)
  | block (comment : Str)

namespace Piece

/-- Code has no slash, a line comment ends with its line, and a block comment holds neither its
end nor the start of a line comment. -/
def Valid : Piece → Prop
  | code s => '/' ∉ s
  | line comment => '\n' ∉ comment
  | block comment => ¬ str "//" <:+: comment ∧ ¬ str "*/" <:+: comment

/-- A part as it is written. A line ends after a line comment, and a blank follows a block
comment. -/
def text : Piece → Str
  | code s => s
  | line comment => str "//" ++ comment ++ ['\n']
  | block comment => str "/*" ++ comment ++ str "*/ "

/-- A part after line comments have been erased. -/
def afterLines : Piece → Str
  | line _ => ['\n']
  | p => p.text

/-- A part without its comment. -/
def withoutComment : Piece → Str
  | code s => s
  | line _ => ['\n']
  | block _ => [' ']

end Piece

section Comments

variable {comment rest : Str} {pieces : List Piece}

theorem lineComment_line (h : '\n' ∉ comment) (rest : Str) :
    lineComment.first ((str "//" ++ comment) ++ '\n' :: rest) = some ([], '\n' :: rest) := by
  have hline : ∀ c ∈ comment, notNewline c = true := fun c hc =>
    decide_eq_true fun he => h (he ▸ hc)
  have hempty : empty.results ('\n' :: rest) ≠ [] := by simp
  simp only [lineComment, inTurn, List.foldr]
  rw [List.append_assoc, first_seq_of_singleton (results_lit _ _), first_greedy hline rfl hempty]
  rfl

/-- Two characters that start within a string, where the second one does not follow it, stand in
the string. -/
theorem infix_of_isPrefix {x y z : Char} {u v w s : Str} (he : w = u ++ v) (hv : v ≠ [])
    (hz : z ≠ y) (h : [x, y] <+: v ++ z :: s) : [x, y] <:+: w := by
  obtain ⟨c, v, rfl⟩ := List.exists_cons_of_ne_nil hv
  obtain ⟨hx, hrest⟩ := List.cons_prefix_cons.mp h
  rcases v with _ | ⟨d, v⟩
  · exact absurd (List.cons_prefix_cons.mp hrest).1.symm hz
  · exact ⟨u, v, by simp [he, hx, (List.cons_prefix_cons.mp hrest).1]⟩

/-- A block comment is no line comment. -/
theorem erase_lineComment_block (h : ¬ str "//" <:+: comment) (rest : Str) :
    erase lineComment 0 ((Piece.block comment).text ++ rest) =
      (Piece.block comment).text ++ erase lineComment 0 rest := by
  have htext (s : Str) : (Piece.block comment).text ++ s =
      '/' :: ('*' :: comment ++ '*' :: '/' :: ' ' :: s) := by simp [Piece.text, str]
  have hopen (s : Str) : erase lineComment 0 ('/' :: ('*' :: comment ++ s)) =
      '/' :: erase lineComment 0 ('*' :: comment ++ s) :=
    erase_keep (first_eq_none_of_not_isPrefix (by simp [str]))
  have hclose (s : Str) : erase lineComment 0 ('/' :: ' ' :: s) =
      '/' :: erase lineComment 0 (' ' :: s) :=
    erase_keep (first_eq_none_of_not_isPrefix (by simp [str]))
  have hcomment (s : Str) : erase lineComment 0 ('*' :: comment ++ '*' :: s) =
      '*' :: comment ++ erase lineComment 0 ('*' :: s) := by
    refine erase_append fun u v he hv => first_eq_none_of_not_isPrefix fun hprefix => h ?_
    obtain ⟨w, w', hw⟩ := infix_of_isPrefix he hv (by decide) hprefix
    rcases w with _ | ⟨c, w⟩
    · exact absurd (List.cons.inj hw).1 (by decide)
    · exact ⟨w, w', (List.cons.inj hw).2⟩
  have hstar (s : Str) : erase lineComment 0 ('*' :: s) = '*' :: erase lineComment 0 s :=
    erase_append_of_not_mem (w := ['*']) (by decide)
  have hblank (s : Str) : erase lineComment 0 (' ' :: s) = ' ' :: erase lineComment 0 s :=
    erase_append_of_not_mem (w := [' ']) (by decide)
  rw [htext, htext, hopen, hcomment, hstar, hclose, hblank]

/-- Line comments are erased, and nothing else. -/
theorem erase_lineComment (h : ∀ p ∈ pieces, p.Valid) :
    erase lineComment 0 (pieces.flatMap Piece.text) = pieces.flatMap Piece.afterLines := by
  induction pieces with
  | nil => rfl
  | cons p pieces ih =>
    obtain ⟨hp, hpieces⟩ := List.forall_mem_cons.mp h
    rw [List.flatMap_cons, List.flatMap_cons, ← ih hpieces]
    cases p with
    | code s => exact erase_append_of_not_mem hp
    | line comment =>
      rw [Piece.text, List.append_assoc, List.singleton_append,
        erase_match (by simp [str]) (lineComment_line hp _)]
      exact erase_append_of_not_mem (w := ['\n']) (by decide)
    | block comment => exact erase_lineComment_block hp.1 _

theorem blockComment_block (h : ¬ str "*/" <:+: comment) (rest : Str) :
    blockComment.first ((str "/*" ++ comment ++ str "*/") ++ rest) =
      some ([([], comment)], rest) := by
  have hearlier : ∀ u v, comment = u ++ v → v ≠ [] → ¬ str "*/" <+: v ++ (str "*/" ++ rest) :=
    fun u v he hv hprefix => h (infix_of_isPrefix he hv (by decide) hprefix)
  rw [List.append_assoc, List.append_assoc]
  exact first_delimited hearlier

/-- Block comments are erased, and nothing else. -/
theorem erase_blockComment (h : ∀ p ∈ pieces, p.Valid) :
    erase blockComment 0 (pieces.flatMap Piece.afterLines) =
      pieces.flatMap Piece.withoutComment := by
  induction pieces with
  | nil => rfl
  | cons p pieces ih =>
    obtain ⟨hp, hpieces⟩ := List.forall_mem_cons.mp h
    rw [List.flatMap_cons, List.flatMap_cons, ← ih hpieces]
    cases p with
    | code s => exact erase_append_of_not_mem hp
    | line comment => exact erase_append_of_not_mem (w := ['\n']) (by decide)
    | block comment =>
      have htext : (Piece.block comment).afterLines ++ pieces.flatMap Piece.afterLines =
          (str "/*" ++ comment ++ str "*/") ++ ' ' :: pieces.flatMap Piece.afterLines := by
        simp [Piece.afterLines, Piece.text, str]
      rw [htext, erase_match (by simp [str]) (blockComment_block hp.2 _)]
      exact erase_append_of_not_mem (w := [' ']) (by decide)

end Comments

/-! ## Chunks -/

section FromFirst

variable {w lead s : Str}

theorem fromFirst_eq_none : fromFirst w s = none ↔ ¬ w <:+: s := by
  induction s with
  | nil =>
    rw [fromFirst, List.infix_nil]
    split <;> simp_all
  | cons c cs ih =>
    rw [fromFirst, List.infix_cons_iff, not_or, ← ih]
    split
    next h => simp [List.isPrefixOf_iff_prefix.mp h]
    next h => simp [mt List.isPrefixOf_iff_prefix.mpr h]

theorem fromFirst_append (hskip : ∀ u v, lead = u ++ v → v ≠ [] → ¬ w <+: v ++ s)
    (h : w <+: s) : fromFirst w (lead ++ s) = some s := by
  induction lead with
  | nil =>
    cases s with
    | nil => rw [List.prefix_nil.mp h]; rfl
    | cons c cs => exact if_pos (List.isPrefixOf_iff_prefix.mpr h)
  | cons c lead ih =>
    have hhere : ¬ w <+: c :: (lead ++ s) := hskip [] (c :: lead) rfl (List.cons_ne_nil c lead)
    rw [List.cons_append, fromFirst, if_neg (mt List.isPrefixOf_iff_prefix.mp hhere)]
    exact ih fun u v he hv => hskip (c :: u) v (congrArg (c :: ·) he) hv

end FromFirst

/-- A member that the generator tries to parse. -/
inductive Found where
  | method (d : Declaration)
  | destructor (d : PureDestructor)
  | notPure (m : NotPure)

namespace Found

/-- The member as it is written. -/
def text : Found → Str
  | method d => d.text
  | destructor d => d.text
  | notPure m => m.text

/-- The declaration that is parsed. -/
def declaration : Found → Option Declaration
  | method d => some d
  | destructor _ => none
  | notPure _ => none

/-- The text that cannot be parsed. -/
def unparsed : Found → Option Str
  | method _ => none
  | destructor d => some d.text
  | notPure m => some m.text

theorem virtual_prefix_text (f : Found) : str "virtual" <+: f.text := by
  cases f with
  | method d => exact List.prefix_append _ _
  | destructor d => exact ⟨str " ~" ++ d.word ++ str "()" ++
      (if d.isNoexcept then str " noexcept" else []) ++ str " = 0", by
        simp [text, PureDestructor.text, str]⟩
  | notPure m => exact m.head

theorem pure_infix_text (f : Found) : str "= 0" <:+: f.text := by
  cases f with
  | method d =>
    refine ⟨str "virtual" ++ ' ' :: (d.ret ++ ' ' :: (d.name ++ '(' :: (d.args ++ ')' ::
      ((if d.quals = [] then [] else ' ' :: d.quals) ++ [' '])))), [], ?_⟩
    simp [text, Declaration.text, Declaration.tail, Declaration.afterArgs, str]
  | destructor d =>
    refine ⟨str "virtual ~" ++ d.word ++ str "()" ++
      (if d.isNoexcept then str " noexcept" else []) ++ [' '], [], ?_⟩
    simp [text, PureDestructor.text, str]
  | notPure m => exact m.zero

end Found

/-- The text before a semicolon, and the member in it that the generator tries to parse. -/
structure Chunk where
  text : Str
  found : Option Found
  semicolon : ';' ∉ text
  declares : ∀ f ∈ found, ∃ lead, collapse text = lead ++ f.text ∧
    ∀ u v, lead = u ++ v → v ≠ [] → ¬ str "virtual" <+: v ++ f.text
  other : found = none → ¬ str "= 0" <:+: collapse text ∨ ¬ str "virtual" <:+: collapse text

/-- A chunk yields its member. -/
theorem declOf_text (c : Chunk) : declOf c.text = c.found.map Found.text := by
  rw [declOf]
  rcases hfound : c.found with _ | f
  · rcases c.other hfound with h | h
    · simp [fromFirst_eq_none.mpr h]
    · simp [fromFirst_eq_none.mpr h]
  · obtain ⟨lead, htext, hfirst⟩ := c.declares f hfound
    have hinfix : str "= 0" <:+: lead ++ f.text :=
      f.pure_infix_text.trans (List.suffix_append lead f.text).isInfix
    have hpure : fromFirst (str "= 0") (lead ++ f.text) ≠ none :=
      mt fromFirst_eq_none.mp (not_not.mpr hinfix)
    simp [htext, hpure, fromFirst_append hfirst f.virtual_prefix_text]

/-- The body of a class. Without comments it is a sequence of chunks. -/
structure ClassBody where
  pieces : List Piece
  chunks : List Chunk
  pieces_valid : ∀ p ∈ pieces, p.Valid
  chunks_nonempty : chunks ≠ []
  pieces_chunks : pieces.flatMap Piece.withoutComment = [';'].intercalate (chunks.map Chunk.text)

namespace ClassBody

variable (b : ClassBody)

/-- The body as it is written. -/
def text : Str := b.pieces.flatMap Piece.text

/-- The members that the generator tries to parse, in order. -/
def found : List Found := b.chunks.filterMap Chunk.found

/-- The pure virtual methods, in the order of their declarations. -/
def methods : List Declaration := b.found.filterMap Found.declaration

/-- The first member that cannot be parsed. -/
def unparsed : Option Str := b.found.findSome? Found.unparsed

end ClassBody

theorem splitDecls_text (b : ClassBody) : splitDecls b.text = b.found.map Found.text := by
  have huncomment : uncomment b.text = [';'].intercalate (b.chunks.map Chunk.text) := by
    rw [uncomment, ClassBody.text, erase_lineComment b.pieces_valid,
      erase_blockComment b.pieces_valid, b.pieces_chunks]
  have hsemicolon : ∀ t ∈ b.chunks.map Chunk.text, ';' ∉ t := by
    intro t ht
    obtain ⟨c, -, rfl⟩ := List.mem_map.mp ht
    exact c.semicolon
  have hnonempty : b.chunks.map Chunk.text ≠ [] := mt List.map_eq_nil_iff.mp b.chunks_nonempty
  rw [splitDecls, huncomment, List.splitOn_intercalate ';' hsemicolon hnonempty, List.filterMap_map,
    ClassBody.found, List.map_filterMap]
  exact List.filterMap_congr fun c _ => declOf_text c

/-! ## Classes -/

/-- The definition of a class, and the text behind it. -/
structure ClassDef (cls : Str) where
  head : Str
  body : Str
  after : Str
  head_word : ∀ c ∈ head.head?, isWordChar c = false
  head_brace : '\x7b' ∉ head
  body_end : ∀ u v, body = u ++ v → v ≠ [] → ¬ str "\n\x7d;" <+: v ++ (str "\n\x7d;" ++ after)

namespace ClassDef

variable {cls : Str} (c : ClassDef cls)

/-- The body between its braces, and the text behind it. -/
def braced : Str := ['\x7b'] ++ (c.body ++ (str "\n\x7d;" ++ c.after))

/-- The definition as it is written, and the text behind it. -/
def text : Str := (str "class " ++ cls) ++ (c.head ++ c.braced)

theorem first_bodyRe : bodyRe.first c.braced = some ([(str "body", c.body)], c.after) :=
  first_delimited c.body_end

/-- The expression captures the body of the class. -/
theorem first_classRe : (classRe cls).first c.text = some ([(str "body", c.body)], c.after) := by
  have hword : (c.head ++ c.braced).head?.any isWordChar = false := by
    rcases hhead : c.head with _ | ⟨x, xs⟩
    · rfl
    · exact c.head_word x (by rw [hhead]; rfl)
  have hnotAhead : (notAhead isWordChar).results (c.head ++ c.braced) =
      [([], c.head ++ c.braced)] := by
    rw [results_notAhead, hword]
    rfl
  have hbrace : ∀ x ∈ c.head, decide (x ≠ '\x7b') = true := fun x hx =>
    decide_eq_true fun he => c.head_brace (he ▸ hx)
  have hbody : bodyRe.results c.braced ≠ [] := List.ne_nil_of_mem (List.mem_of_head? c.first_bodyRe)
  rw [classRe, text, first_seq_of_singleton (results_lit _ _), first_seq_of_singleton hnotAhead]
  exact (first_greedy hbrace rfl hbody).trans c.first_bodyRe

/-- A class is found behind text in which only longer names follow the word `class`. -/
theorem classBody_text {before : Str} (hboundary : ∀ x ∈ before.getLast?, isWordChar x = false)
    (hother : ∀ u v rest, before = u ++ v → v ≠ [] → v ++ c.text = str "class " ++ cls ++ rest →
      rest.head?.any isWordChar = true) : classBody (before ++ c.text) cls = some c.body := by
  have hskip : ∀ u v, before = u ++ v → v ≠ [] → (classRe cls).first (v ++ c.text) = none := by
    intro u v he hv
    refine Option.eq_none_iff_forall_not_mem.mpr fun m hm => ?_
    obtain ⟨g₁, s₁, g₂, hclass, hrest, -⟩ := mem_seq.mp (List.mem_of_head? hm)
    obtain ⟨-, hs⟩ := mem_lit.mp hclass
    obtain ⟨g₃, s₂, g₄, hword, -, -⟩ := mem_seq.mp hrest
    obtain ⟨-, rfl, hword⟩ := mem_notAhead.mp hword
    exact Bool.false_ne_true (hword.symm.trans (hother u v _ he hv hs))
  have hstart : (!(before.getLast?.or none).any isWordChar) = true := by
    rcases hlast : before.getLast? with _ | x
    · rfl
    · simp [hboundary x hlast]
  rw [classBody, search_append hskip hstart c.first_classRe]
  rfl

end ClassDef

/-! ## Overrides -/

namespace Declaration

variable {d : Declaration}

/-- The override of a method. -/
def override (cls : Str) (d : Declaration) : Str :=
  overrideLine cls d.ret d.name (joined (d.params.map Parameter.stripped)) d.quals

/-- The methods that need a stub. -/
def IsStub (excl : List Str) (d : Declaration) : Bool := !excl.contains d.name && !d.destructor

theorem tilde_isPrefixOf_name : ['~'].isPrefixOf d.name = d.destructor := by
  rw [name]
  cases d.destructor with
  | true => rfl
  | false =>
    obtain ⟨c, w, hw⟩ := List.exists_cons_of_ne_nil d.word_nonempty
    have hc : isWordChar c = true := d.word_chars c (hw ▸ List.mem_cons_self)
    have hne : c ≠ '~' := fun he => absurd (he ▸ hc) (by decide)
    simp [hw, List.isPrefixOf, hne.symm]

/-- A declaration is parsed, and overridden where it needs a stub. -/
theorem genDecl_text (excl : List Str) (cls : Str) (d : Declaration) :
    genDecl excl cls d.text = .ok (if d.IsStub excl then some (d.override cls) else none) := by
  obtain ⟨q, s', hq, hfirst⟩ := d.first_declRe
  have hret : captured [(str "ret", d.ret), (str "name", d.name), (str "args", d.args),
      (str "quals", q)] (str "ret") = d.ret := rfl
  have hname : captured [(str "ret", d.ret), (str "name", d.name), (str "args", d.args),
      (str "quals", q)] (str "name") = d.name := rfl
  have hargs : captured [(str "ret", d.ret), (str "name", d.name), (str "args", d.args),
      (str "quals", q)] (str "args") = d.args := rfl
  have hquals : captured [(str "ret", d.ret), (str "name", d.name), (str "args", d.args),
      (str "quals", q)] (str "quals") = q := rfl
  have hstrip : stripDefaults d.args = joined (d.params.map Parameter.stripped) :=
    stripLoop_joined d.params
  rw [genDecl, hfirst]
  simp only [hret, hname, hargs, hquals, hq, hstrip, tilde_isPrefixOf_name, IsStub, override]
  by_cases hexcl : d.name ∈ excl <;> by_cases hdes : d.destructor = true <;> simp [hexcl, hdes]

end Declaration

/-- The line for a member that is parsed, where one is written. -/
def Found.line (excl : List Str) (cls : Str) (f : Found) : Option Str :=
  f.declaration.bind fun d => if d.IsStub excl then some (d.override cls) else none

/-- What is generated for a member. -/
theorem genDecl_found (excl : List Str) (cls : Str) (f : Found) : genDecl excl cls f.text =
    f.unparsed.elim (.ok (f.line excl cls)) fun decl => .error (.notParsed cls decl) := by
  cases f with
  | method d => exact d.genDecl_text excl cls
  | destructor d =>
    rw [genDecl, Found.text, d.first_declRe]
    rfl
  | notPure m =>
    rw [genDecl, Found.text, m.first_declRe]
    rfl

/-- The loop over the members stops at the first one that cannot be parsed. -/
theorem mapM_genDecl (excl : List Str) (cls : Str) (b : ClassBody) :
    (splitDecls b.text).mapM (genDecl excl cls) = (b.unparsed.map (GenError.notParsed cls)).elim
      (.ok (b.found.map (Found.line excl cls))) .error := by
  rw [splitDecls_text, List.mapM_map, ClassBody.unparsed, List.map_findSome?]
  refine Lists.mapM_first (fun f e hf => ?_) (fun f hf => ?_)
  · obtain ⟨decl, hdecl, rfl⟩ := Option.map_eq_some_iff.mp hf
    rw [Function.comp_apply, genDecl_found, hdecl]
    rfl
  · rw [Function.comp_apply, genDecl_found, Option.map_eq_none_iff.mp hf]
    rfl

theorem filterMap_line (excl : List Str) (cls : Str) (b : ClassBody) :
    (b.found.map (Found.line excl cls)).filterMap id =
      (b.methods.filter (Declaration.IsStub excl)).map (Declaration.override cls) := by
  rw [List.filterMap_map, ClassBody.methods, ← List.filterMap_eq_map, List.filterMap_filter,
    List.filterMap_filterMap]
  rfl

theorem genClass_eq {excl : List Str} {text cls body : Str}
    (hbody : classBody text cls = some body) :
    genClass excl text cls = ((splitDecls body).mapM (genDecl excl cls)).map fun lines =>
      ['\n'].intercalate (heading cls ++ lines.filterMap id) ++ ['\n'] := by
  rw [genClass, hbody, Option.elim_some]
  change (splitDecls body).mapM (genDecl excl cls) >>= _ = _
  rcases (splitDecls body).mapM (genDecl excl cls) with e | lines
  · rfl
  · rfl

/-- Each file is what is generated for one of the classes. Where `main` is not left early, there is
a file for each class. -/
theorem genFiles_spec (text : Str) (classes : List (Str × List Str)) :
    (∀ f ∈ (genFiles text classes).1, ∃ c ∈ classes, f.1 = c.1 ++ str ".stubs.inc" ∧
      genClass c.2 text c.1 = .ok f.2) ∧
    ((genFiles text classes).2 = none → ∀ c ∈ classes, ∃ file,
      (c.1 ++ str ".stubs.inc", file) ∈ (genFiles text classes).1) := by
  induction classes with
  | nil => exact ⟨fun f hf => absurd hf List.not_mem_nil, fun _ c hc => absurd hc List.not_mem_nil⟩
  | cons c classes ih =>
    rw [genFiles]
    rcases hclass : genClass c.2 text c.1 with e | file
    · exact ⟨fun f hf => absurd hf List.not_mem_nil, fun h => absurd h (Option.some_ne_none e)⟩
    · constructor
      · intro f hf
        rcases List.mem_cons.mp hf with rfl | hf
        · exact ⟨c, List.mem_cons_self, rfl, hclass⟩
        · obtain ⟨c', hc', h⟩ := ih.1 f hf
          exact ⟨c', List.mem_cons_of_mem c hc', h⟩
      · intro hnone c' hc'
        rcases List.mem_cons.mp hc' with rfl | hc'
        · exact ⟨file, List.mem_cons_self⟩
        · obtain ⟨file', hfile⟩ := ih.2 hnone c' hc'
          exact ⟨file', List.mem_cons_of_mem _ hfile⟩

theorem nodup_exclude : (exclude.map Prod.fst).Nodup := by decide +kernel

/-- A class is generated if all its members can be parsed: one override is written for each pure
virtual method that is neither implemented by hand nor a destructor, in the order of the
declarations. Otherwise the generator stops at the first member that cannot be parsed. What is
generated for a class of the table is the file that `main` writes for it. -/
theorem genClass_emits {excl : List Str} {cls before : Str} {c : ClassDef cls} {b : ClassBody}
    (hbody : c.body = b.text) (hboundary : ∀ x ∈ before.getLast?, isWordChar x = false)
    (hother : ∀ u v rest, before = u ++ v → v ≠ [] → v ++ c.text = str "class " ++ cls ++ rest →
      rest.head?.any isWordChar = true) :
    genClass excl (before ++ c.text) cls = b.unparsed.elim (.ok (['\n'].intercalate (heading cls ++
      (b.methods.filter (Declaration.IsStub excl)).map (Declaration.override cls)) ++ ['\n']))
        (fun decl => .error (.notParsed cls decl)) ∧
    ((cls, excl) ∈ exclude →
      (∀ file, (cls ++ str ".stubs.inc", file) ∈ (genFiles (before ++ c.text) exclude).1 →
        genClass excl (before ++ c.text) cls = .ok file) ∧
      ((genFiles (before ++ c.text) exclude).2 = none → ∃ file,
        (cls ++ str ".stubs.inc", file) ∈ (genFiles (before ++ c.text) exclude).1)) := by
  constructor
  · have hclass : classBody (before ++ c.text) cls = some b.text :=
      hbody ▸ c.classBody_text hboundary hother
    rw [genClass_eq hclass, mapM_genDecl, ← filterMap_line]
    rcases b.unparsed with _ | decl
    · rfl
    · rfl
  · intro hmem
    obtain ⟨hfiles, hall⟩ := genFiles_spec (before ++ c.text) exclude
    refine ⟨fun file hfile => ?_, fun hnone => hall hnone _ hmem⟩
    obtain ⟨c', hc', hname, hgen⟩ := hfiles _ hfile
    have hcls : (cls, excl).1 = c'.1 := List.append_cancel_right hname
    obtain rfl : (cls, excl) = c' := List.inj_on_of_nodup_map nodup_exclude hmem hc' hcls
    exact hgen

/-- A method that is implemented by hand. -/
def dataDecl : Declaration where
  ret := str "void*"
  destructor := false
  word := str "data"
  params := []
  isConst := false
  isNoexcept := true
  ret_nonempty := by decide
  ret_trimmed := ⟨by simp [str, isSpace], by simp [str, isSpace], by decide⟩
  ret_paren := by decide
  word_nonempty := by decide
  word_chars := List.all_eq_true.mp (by decide)
  params_line := by decide

/-- A method with a default argument. -/
def loadDecl : Declaration where
  ret := str "bool"
  destructor := false
  word := str "load"
  params := [⟨str "T x", none, by decide, nofun⟩,
    ⟨str "int k", some (str "f(0, 1)"), by decide, by decide⟩]
  isConst := true
  isNoexcept := false
  ret_nonempty := by decide
  ret_trimmed := ⟨by simp [str, isSpace], by simp [str, isSpace], by decide⟩
  ret_paren := by decide
  word_nonempty := by decide
  word_chars := List.all_eq_true.mp (by decide)
  params_line := by decide

/-- A body with comments, an access specifier, a destructor and two pure virtual methods. -/
def blobBody : ClassBody where
  pieces := [.code (str "\npublic: "), .line (str "; = 0"),
    .code (str "virtual void* data() noexcept = 0;\n~V() = default;\n"), .block (str " and/or; "),
    .code (str "virtual bool load(T x,\n  int k = f(0, 1)) const = 0;")]
  chunks := [
    { text := str "\npublic: \nvirtual void* data() noexcept = 0"
      found := some (.method dataDecl)
      semicolon := by decide
      declares := by
        rintro d ⟨⟩
        refine ⟨str "public: ", by decide +kernel, fun u v he hv => not_prefix_of_not_mem ?_ hv⟩
        have hlead : 'v' ∉ str "public: " := by decide
        exact fun hmem => hlead (he ▸ List.mem_append_right u hmem)
      other := nofun },
    { text := str "\n~V() = default"
      found := none
      semicolon := by decide
      declares := nofun
      other := fun _ => .inl (by decide +kernel) },
    { text := str "\n virtual bool load(T x,\n  int k = f(0, 1)) const = 0"
      found := some (.method loadDecl)
      semicolon := by decide +kernel
      declares := by
        rintro d ⟨⟩
        refine ⟨[], by decide +kernel, fun u v he hv => absurd ?_ hv⟩
        exact (List.append_eq_nil_iff.mp he.symm).2
      other := nofun },
    { text := []
      found := none
      semicolon := by decide
      declares := nofun
      other := fun _ => .inl (by decide) }]
  pieces_valid := by
    intro p hp
    simp only [List.mem_cons, List.not_mem_nil, or_false] at hp
    rcases hp with rfl | rfl | rfl | rfl | rfl
    all_goals unfold Piece.Valid
    all_goals decide +kernel
  chunks_nonempty := List.cons_ne_nil _ _
  pieces_chunks := by decide +kernel

/-- A body with a pure virtual destructor. -/
def rootBody : ClassBody where
  pieces := [.code (str "\n  virtual ~V()\n    noexcept = 0;")]
  chunks := [
    { text := str "\n  virtual ~V()\n    noexcept = 0"
      found := some (.destructor ⟨str "V", true, List.all_eq_true.mp (by decide)⟩)
      semicolon := by decide
      declares := by
        rintro f ⟨⟩
        refine ⟨[], by decide +kernel, fun u v he hv => absurd ?_ hv⟩
        exact (List.append_eq_nil_iff.mp he.symm).2
      other := nofun },
    { text := []
      found := none
      semicolon := by decide
      declares := nofun
      other := fun _ => .inl (by decide) }]
  pieces_valid := by
    intro p hp
    obtain rfl := List.mem_singleton.mp hp
    exact fun hmem => absurd hmem (by decide)
  chunks_nonempty := List.cons_ne_nil _ _
  pieces_chunks := by decide +kernel

/-- A class with a body that has no closing brace. -/
def classOf (b : ClassBody) (h : '\x7d' ∉ b.text) : ClassDef (str "V") where
  head := str " : public VRoot\n"
  body := b.text
  after := str "\n"
  head_word := by simp [str, isWordChar]
  head_brace := by decide
  body_end := by
    intro u v he hv hprefix
    have htwo : ['\n', '\x7d'] <+: str "\n\x7d;" := ⟨[';'], rfl⟩
    have hsub := infix_of_isPrefix he hv (by decide) (htwo.trans hprefix)
    exact h (hsub.subset (by decide))

/-- The words `class VX` are not the start of the class `V`. -/
theorem longer_name {u v rest s : Str} (he : str "class VX;\n" = u ++ v) (hv : v ≠ [])
    (htext : v ++ s = str "class " ++ str "V" ++ rest) : rest.head?.any isWordChar = true := by
  cases u with
  | nil =>
    obtain rfl : str "class VX;\n" = v := he
    have hrest : rest = 'X' :: (str ";\n" ++ s) :=
      List.append_cancel_left (htext.symm.trans rfl)
    rw [hrest]
    rfl
  | cons x u =>
    have hc : 'c' ∉ str "lass VX;\n" := by decide
    have hlass : str "lass VX;\n" = u ++ v := (List.cons.inj he).2
    have hv' : 'c' ∉ v := fun hmem => hc (hlass ▸ List.mem_append_right u hmem)
    exact absurd ⟨_, htext.symm⟩ (not_prefix_of_not_mem hv' hv)

theorem genClass_emits_blob : ∃ hblob hroot,
    genClass [str "data"] (str "class VX;\n" ++ (classOf blobBody hblob).text) (str "V") =
      .ok (['\n'].intercalate (heading (str "V") ++
        [str "bool load(T x, int k ) const override " ++
          str "\x7b ::trtshim::trtshim_unimpl(\"V::load\"); return false; \x7d"]) ++ ['\n']) ∧
    genClass [str "data"] (str "class VX;\n" ++ (classOf rootBody hroot).text) (str "V") =
      .error (.notParsed (str "V") (str "virtual ~V() noexcept = 0")) := by
  have hblob : '\x7d' ∉ blobBody.text := by decide +kernel
  have hroot : '\x7d' ∉ rootBody.text := by decide +kernel
  have hstubs : (blobBody.methods.filter (Declaration.IsStub [str "data"])).map
      (Declaration.override (str "V")) = [str "bool load(T x, int k ) const override " ++
        str "\x7b ::trtshim::trtshim_unimpl(\"V::load\"); return false; \x7d"] := by
    decide +kernel
  have hparsed : blobBody.unparsed = none := rfl
  have hunparsed : rootBody.unparsed = some (str "virtual ~V() noexcept = 0") := by decide +kernel
  refine ⟨hblob, hroot, ?_, ?_⟩
  · rw [(genClass_emits (c := classOf blobBody hblob) rfl (by simp [str, isWordChar])
      fun _ _ _ => longer_name).1, hparsed, hstubs]
    rfl
  · rw [(genClass_emits (c := classOf rootBody hroot) rfl (by simp [str, isWordChar])
      fun _ _ _ => longer_name).1, hunparsed]
    rfl

end TrtShim.Tools
