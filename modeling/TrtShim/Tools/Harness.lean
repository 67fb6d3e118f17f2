import TrtShim.Text.Lines
import TrtShim.Text.Utf8
import TrtShim.Tools.Infer
import TrtShim.Tools.Scoreboard

/-! # The scoreboard and the runner

The scoreboard writes the arrays of a case to files, starts the runner, and reads
the first output back from the file that the first line of the runner names. If the
names of the tensors are such that they survive the command line, the output of the
runner and the file system, then its verdict on a case is the comparison of the
expected array with what the model computes of the arrays.
-/

namespace TrtShim.Tools

open Str Backend Shim

variable {M : Migraphx} {α : Type}

/-- The process of a runner that has exited, as the scoreboard sees it. -/
structure Ran (ex : Exit) (r : Completed) : Prop where
  returncode : r.returncode = ex.code.toInt
  stdout : ∃ s, utf8 s = ex.stdout ∧ r.stdout = newlines s
  file : ∀ path, r.file path = ex.files[utf8 path]?

/-- The runner can read the files that were written for it. -/
def Reads (ins : Inputs) (inv : Invocation) : Prop :=
  ∀ path bytes, (path, bytes) ∈ inv.files → ins.readFile (utf8 path) = some bytes

/-- The graph inputs of a case have names of their own without `=`, and arrays that are large enough
for the inputs of the model. -/
structure Fits (np : Numpy α) (c : Case α) (ps : ParameterSet) : Prop where
  length : c.ins.length = c.inNames.length
  names : c.inNames.Nodup
  noEq : ∀ name ∈ c.inNames, '=' ∉ name
  inputs : ∀ p ∈ inputsOf ps.params, ∃ q ∈ c.pairs,
    utf8 q.1 = p.1 ∧ p.2.bytes.toNat ≤ (np.tobytes q.2).length

/-- The inputs of a model in a case. -/
def caseInputs (np : Numpy α) (c : Case α) (ps : ParameterSet) : List (Bytes × Shape × Bytes) :=
  (inputsOf ps.params).map fun p =>
    let array := c.pairs.find? fun q => utf8 q.1 = p.1
    (p.1, p.2, (array.elim [] fun q => np.tobytes q.2).take p.2.bytes.toNat)

/-- The name of an output as a file name. -/
def san (name : Str) : Str := name.map fun ch => if ch ∈ str "/: " then '_' else ch

/-- The comparison of the bytes of an output with the array expected. -/
def compared (np : Numpy α) (exp : α) (bytes : Bytes) : Except Str Verdict := do
  let got ← np.frombuffer bytes exp
  if np.size got ≠ np.size exp then
    return (.fail, str "size " ++ decimal (np.size got) ++ str "!=" ++ decimal (np.size exp))
  let got := np.reshape got exp
  let ok := if np.isFloating exp then np.allclose got exp else np.arrayEqual got exp
  return if ok then (.pass, []) else (.fail, str "mismatch")

section Arguments

theorem splitArg_utf8 {name path : Str} (h : '=' ∉ name) :
    splitArg (utf8 (name ++ '=' :: path)) = some (utf8 name, utf8 path) := by
  have hbyte : (61 : UInt8) ∉ utf8 name := fun hmem =>
    h ((mem_utf8 (c := '=') (by decide)).mp hmem)
  have hname : ∀ c ∈ utf8 name, decide (c ≠ 61) = true := fun c hc =>
    decide_eq_true fun he => hbyte (he ▸ hc)
  have hbytes : utf8 (name ++ '=' :: path) = utf8 name ++ 61 :: utf8 path := utf8_append
  have htake : (utf8 name ++ 61 :: utf8 path).takeWhile (fun c => c ≠ 61) = utf8 name := by
    rw [List.takeWhile_append_of_pos hname]
    simp
  rw [splitArg, hbytes, htake]
  simp

variable {np : Numpy α} {c : Case α} {ps : ParameterSet} {ins : Inputs} {runner tmp : Str}

/-- The arguments for the graph inputs, as the runner gets them. -/
def inputArgs (c : Case α) (tmp : Str) : List Bytes :=
  (c.pairs.zipIdx 3).map fun p => utf8 (p.1.1 ++ '=' :: inputPath tmp p.2)

theorem map_args : (c.invocation np runner tmp).args.map utf8 =
    utf8 runner :: utf8 c.model :: utf8 tmp :: inputArgs c tmp := by
  rw [Case.invocation_eq, inputArgs, List.map_append, List.map_map]
  rfl

theorem given_eq (tmp : Str) (h : ∀ name ∈ c.inNames, '=' ∉ name) :
    (inputArgs c tmp).filterMap splitArg =
      (c.pairs.zipIdx 3).map fun p => (utf8 p.1.1, utf8 (inputPath tmp p.2)) := by
  rw [inputArgs, List.filterMap_map, ← List.filterMap_eq_map]
  refine List.filterMap_congr fun p hp => ?_
  have hname : p.1.1 ∈ c.inNames :=
    (List.of_mem_zip (List.fst_mem_of_mem_zipIdx hp)).1
  exact splitArg_utf8 (h _ hname)

theorem Fits.nodup (h : Fits np c ps) : (c.pairs.map Prod.fst).Nodup := by
  rw [Case.pairs, List.map_fst_zip (Nat.le_of_eq h.length.symm)]
  exact h.names

theorem inputPath_ne_nil {n : ℕ} : inputPath tmp n ≠ [] := by
  have hfile : str "in_" ++ decimal n ++ str ".bin" ≠ [] := by simp [str]
  rw [inputPath, joinPath]
  split
  next => exact hfile
  next =>
    split
    next => exact List.append_ne_nil_of_right_ne_nil _ hfile
    next => exact List.append_ne_nil_of_right_ne_nil _ (List.cons_ne_nil _ _)

/-- The runner looks for the array of a graph input in the file that was written for it. -/
theorem fileFor_given (h : Fits np c ps) {k : ℕ} {q : Str × α} (hq : c.pairs[k]? = some q) :
    fileFor ((inputArgs c tmp).filterMap splitArg) (utf8 q.1) = utf8 (inputPath tmp (k + 3)) := by
  have hpairs := h.nodup
  have hgiven := given_eq tmp h.noEq
  have hpath : utf8 (inputPath tmp (k + 3)) ≠ [] := fun he =>
    inputPath_ne_nil (utf8_injective (he.trans utf8_nil.symm))
  have hlast : Lists.lastValue ((inputArgs c tmp).filterMap splitArg) (utf8 q.1) =
      some (utf8 (inputPath tmp (k + 3))) := by
    rw [hgiven]
    refine Lists.lastValue_eq_some (List.mem_map.mpr ⟨(q, k + 3), ?_, rfl⟩) fun v hv => ?_
    · exact List.mk_mem_zipIdx_iff_le_and_getElem?_sub.mpr ⟨Nat.le_add_left 3 k, hq⟩
    · obtain ⟨⟨q', i⟩, hmem, he⟩ := List.mem_map.mp hv
      obtain ⟨hname, rfl⟩ := Prod.mk.inj he
      obtain ⟨hle, hq'⟩ := List.mk_mem_zipIdx_iff_le_and_getElem?_sub.mp hmem
      have hkeys : (c.pairs.map Prod.fst)[k]? = (c.pairs.map Prod.fst)[i - 3]? := by
        rw [List.getElem?_map, List.getElem?_map, hq, hq', Option.map_some, Option.map_some,
          utf8_injective hname]
      have hk : k < (c.pairs.map Prod.fst).length := by
        rw [List.length_map]
        exact (List.getElem?_eq_some_iff.mp hq).1
      obtain rfl : k = i - 3 := (List.getElem?_inj hk hpairs).mp hkeys
      rw [Nat.sub_add_cancel hle]
  have hfile : ((inputArgs c tmp).filterMap splitArg).foldl
      (fun file kv => if kv.1 = utf8 q.1 then kv.2 else file) [] =
        utf8 (inputPath tmp (k + 3)) := by
    refine (Lists.foldl_eq_lastValue id _ _ []).trans ?_
    rw [hlast]
    rfl
  rw [fileFor, hfile]
  exact if_neg fun he => hpath he.1

/-- The runner reads the array of a graph input. -/
theorem readFile_given (h : Fits np c ps) (hreads : Reads ins (c.invocation np runner tmp))
    {k : ℕ} {q : Str × α} (hq : c.pairs[k]? = some q) :
    ins.readFile (fileFor ((inputArgs c tmp).filterMap splitArg) (utf8 q.1)) =
      some (np.tobytes q.2) := by
  rw [fileFor_given h hq]
  refine hreads _ _ ?_
  rw [Case.invocation_eq]
  refine List.mem_map.mpr ⟨(q, k + 3), ?_, rfl⟩
  exact List.mk_mem_zipIdx_iff_le_and_getElem?_sub.mpr ⟨Nat.le_add_left 3 k, hq⟩

/-- What the runner reads for an input of the model is the array of the graph input with its
name. -/
theorem readFile_input (h : Fits np c ps) (hreads : Reads ins (c.invocation np runner tmp))
    {p : Bytes × Shape} (hp : p ∈ inputsOf ps.params) :
    ∃ q, (c.pairs.find? fun q => utf8 q.1 = p.1) = some q ∧
      p.2.bytes.toNat ≤ (np.tobytes q.2).length ∧
      ins.readFile (fileFor ((inputArgs c tmp).filterMap splitArg) p.1) =
        some (np.tobytes q.2) := by
  obtain ⟨q, hq, hname, hsize⟩ := h.inputs p hp
  obtain ⟨k, hk⟩ := List.getElem?_of_mem hq
  refine ⟨q, ?_, hsize, hname ▸ readFile_given h hreads hk⟩
  rcases hfind : c.pairs.find? fun q => utf8 q.1 = p.1 with _ | q'
  · exact absurd hname (by simpa using List.find?_eq_none.mp hfind q hq)
  · have hname' : utf8 q'.1 = p.1 := by simpa using List.find?_some hfind
    rw [hfind, List.inj_on_of_nodup_map h.nodup (List.mem_of_find?_eq_some hfind) hq
      (utf8_injective (hname'.trans hname.symm))]

/-- The runner gives the model the inputs of the case. -/
theorem fileInputs_eq (h : Fits np c ps) (hreads : Reads ins (c.invocation np runner tmp)) :
    fileInputs ins ((inputArgs c tmp).filterMap splitArg) ps = caseInputs np c ps := by
  refine List.map_congr_left fun p hp => ?_
  obtain ⟨q, hq, -, hread⟩ := readFile_input h hreads hp
  rw [hread, hq]
  rfl

end Arguments

section Output

theorem text_eq (s : String) (h : IsAscii (str s)) : text s = utf8 (str s) := (utf8_ascii h).symm

theorem sanitize_utf8 (name : Str) : sanitize (utf8 name) = utf8 (san name) := by
  rw [san, ← map_utf8 (l := str "/: ") (by decide) (by decide)]
  rfl

theorem head?_san (name : Str) : (san name ++ str ".bin").head? ≠ some '/' := by
  have hsan : '/' ∉ san name := fun hmem => by
    obtain ⟨ch, -, he⟩ := List.mem_map.mp hmem
    split at he
    next => exact absurd he (by decide)
    next hch => exact hch (he ▸ by decide)
  rcases hname : san name with _ | ⟨ch, chs⟩
  · decide
  · rw [List.cons_append, List.head?_cons, ne_eq, Option.some.injEq]
    rintro rfl
    exact hsan (hname ▸ List.mem_cons_self)

/-- The scoreboard reads the file that the runner has written for an output. -/
theorem outFile_utf8 {tmp : Str} (h : tmp ≠ []) (hlast : tmp.getLast? ≠ some '/') (name : Str) :
    outFile (utf8 tmp) (utf8 name) = utf8 (joinPath tmp (san name ++ str ".bin")) := by
  have hpath : joinPath tmp (san name ++ str ".bin") =
      tmp ++ (str "/" ++ (san name ++ str ".bin")) := by
    rw [joinPath, if_neg (head?_san name), if_neg (not_or.mpr ⟨h, hlast⟩)]
    rfl
  rw [hpath, outFile, sanitize_utf8, text_eq "/" (by decide), text_eq ".bin" (by decide)]
  simp only [utf8_append, List.append_assoc]

/-- The numeral of an integer. -/
def numeral : ℤ → Str
  | .ofNat n => decimal n
  | .negSucc n => '-' :: decimal (n + 1)

theorem digits_eq (n : ℕ) : Decimal.digits n = utf8 (decimal n) := by
  refine (utf8_ascii fun c hc => ?_).symm
  have hlt := (Decimal.toNat_of_mem_toDigits hc).2
  omega

theorem toString_eq (n : ℤ) : Decimal.toString n = utf8 (numeral n) := by
  cases n with
  | ofNat n => exact digits_eq n
  | negSucc n =>
    rw [Decimal.toString, digits_eq, numeral]
    rfl

theorem isLine_decimal (n : ℕ) : IsLine (decimal n) := by
  intro c hc
  obtain ⟨hle, hlt⟩ := Decimal.toNat_of_mem_toDigits hc
  simp only [isLineEnd, List.contains_eq_mem, decide_eq_false_iff_not, List.mem_cons,
    List.not_mem_nil, or_false]
  omega

theorem isLine_numeral (n : ℤ) : IsLine (numeral n) := by
  cases n with
  | ofNat n => exact isLine_decimal n
  | negSucc n => exact List.forall_mem_cons.mpr ⟨by decide, isLine_decimal _⟩

/-- The line for an output, up to its end. -/
def outputLine (name : Str) (io : IOTensor) : Str :=
  str "OUT" ++ ' ' :: (name ++ ' ' :: (numeral (toTrtDtype io.datatype).val.toInt ++
    ' ' :: (str ",").intercalate (io.dims.map fun d => numeral d.toInt)))

theorem tensorLine_eq {name : Str} {io : IOTensor} (h : io.name = utf8 name) :
    tensorLine io = utf8 (outputLine name io ++ ['\n']) := by
  have hblank : ∀ s : Str, ' ' :: s = str " " ++ s := fun s => rfl
  have hdims : (io.dims.map fun d => Decimal.toString d.toInt) =
      (io.dims.map fun d => numeral d.toInt).map utf8 := by
    rw [List.map_map]
    exact List.map_congr_left fun d _ => toString_eq d.toInt
  rw [tensorLine, h, toString_eq, hdims, text_eq "OUT " (by decide), text_eq " " (by decide),
    text_eq "," (by decide), text_eq "\n" (by decide), ← utf8_intercalate, outputLine]
  simp only [hblank, ← utf8_append, List.append_assoc]
  rfl

theorem isLine_outputLine {name : Str} (h : IsWord name) (io : IOTensor) :
    IsLine (outputLine name io) := by
  have hdims : IsLine ((str ",").intercalate (io.dims.map fun d => numeral d.toInt)) :=
    .intercalate (by decide) (List.forall_mem_map.mpr fun d _ => isLine_numeral d.toInt)
  exact .append (s := str "OUT") (by decide) (.cons (by decide) (h.isLine.append
    (.cons (by decide) ((isLine_numeral _).append (.cons (by decide) hdims)))))

theorem split_outputLine {name : Str} (h : IsWord name) (io : IOTensor) :
    (split (outputLine name io))[1]? = some name := by
  rw [outputLine, split_word ⟨by decide, by simp [str, isSpace]⟩, split_word h]
  rfl

/-- The scoreboard finds the name of the first output. -/
theorem outputName_eq {name : Str} {io : IOTensor} {outs : List (Str × IOTensor)}
    (h : ∀ o ∈ (name, io) :: outs, IsWord o.1) :
    outputName (newlines (((name, io) :: outs).flatMap fun o => outputLine o.1 o.2 ++ ['\n'])) =
      .ok (san name) := by
  let lines := ((name, io) :: outs).map fun o => outputLine o.1 o.2
  have hlines : ∀ line ∈ lines, IsLine line :=
    List.forall_mem_map.mpr fun o ho => isLine_outputLine (h o ho) o.2
  have hread : ((name, io) :: outs).flatMap (fun o => outputLine o.1 o.2 ++ ['\n']) =
      lines.flatMap fun line => line ++ ['\n'] := by rw [List.flatMap_map]
  have hfilter : (lines.filter fun ln => (str "OUT").isPrefixOf ln) = lines :=
    List.filter_eq_self.mpr (List.forall_mem_map.mpr fun o _ => by simp [outputLine])
  have hnames : lines.mapM (fun ln => ((split ln)[1]?).elim
      (.error (str "list index out of range")) Except.ok) =
        .ok (((name, io) :: outs).map Prod.fst) := by
    rw [List.mapM_map]
    refine Lists.mapM_ok fun o ho => ?_
    rw [Function.comp_apply, split_outputLine (h o ho)]
    rfl
  rw [hread, newlines_flatMap hlines, outputName, splitlines_flatMap hlines, hfilter, hnames]
  rfl

end Output

section Case

variable {np : Numpy α} {tmp : Str} {exp : α} {ps : ParameterSet} {onnxNames : List Bytes}
  {names : List Str} {ex : Exit} {r : Completed} {results : List Bytes}

/-- These are the names of the outputs. Each is one word, and the file for the first one is not
written again for another. -/
structure OutputNames (ps : ParameterSet) (onnxNames : List Bytes) (names : List Str) : Prop where
  eq : (ps.outputs.map fun q => realName onnxNames q.1) = names.map utf8
  words : ∀ name ∈ names, IsWord name
  first : ∀ name ∈ names.tail, names.head?.map san ≠ some (san name)

/-- The lines of the outputs. -/
theorem lines_utf8 {ios : List IOTensor} (h : ios.map (fun io => io.name) = names.map utf8) :
    ios.flatMap tensorLine =
      utf8 ((names.zip ios).flatMap fun o => outputLine o.1 o.2 ++ ['\n']) := by
  induction ios generalizing names with
  | nil => rw [List.zip_nil_right]; rfl
  | cons io ios ih =>
    rcases names with _ | ⟨name, names⟩
    · exact absurd h (by simp)
    · obtain ⟨hname, hnames⟩ := List.cons.inj h
      rw [List.flatMap_cons, List.zip_cons_cons, List.flatMap_cons, utf8_append, ih hnames,
        tensorLine_eq hname]

/-- The file for the first output is the one that was written for it. -/
theorem file_first {disk : Disk} {name : Str} {io : IOTensor} {ios : List IOTensor} {bytes : Bytes}
    {results : List Bytes} (hdisk : ∀ path bytes, disk.write path bytes = some bytes)
    (hios : ios.map (fun io => io.name) = names.map utf8) (hio : io.name = utf8 name)
    (hfirst : ∀ name' ∈ names, san name ≠ san name') (htmp : tmp ≠ [])
    (hlast : tmp.getLast? ≠ some '/') :
    (OrderedMap.fill disk.saved (disk.stored (((io :: ios).zip (bytes :: results)).map fun q =>
      (outFile (utf8 tmp) q.1.name, q.2))))[utf8 (joinPath tmp (san name ++ str ".bin"))]? =
        some bytes := by
  rw [← outFile_utf8 htmp hlast, ← hio]
  refine Disk.getElem?_fill_stored (w := (outFile (utf8 tmp) io.name, bytes)) disk.saved
    List.mem_cons_self (hdisk _ _) fun w hmem hpath => ?_
  rcases List.mem_cons.mp hmem with rfl | hmem
  · rfl
  · obtain ⟨⟨io', bytes'⟩, hzip, rfl⟩ := List.mem_map.mp hmem
    have hname : io'.name ∈ names.map utf8 :=
      hios ▸ List.mem_map_of_mem (List.of_mem_zip hzip).1
    obtain ⟨name', hname', hutf8⟩ := List.mem_map.mp hname
    rw [hio, ← hutf8, outFile_utf8 htmp hlast, outFile_utf8 htmp hlast] at hpath
    have hsan := joinPath_injective (head?_san name') (head?_san name) (utf8_injective hpath)
    exact absurd (List.append_cancel_right hsan).symm (hfirst name' hname')

/-- The verdict on a runner that has reported its outputs. -/
theorem judge_report {disk : Disk} (np : Numpy α) (exp : α)
    (hdisk : ∀ path bytes, disk.write path bytes = some bytes)
    (hnames : OutputNames ps onnxNames names) (hps : ps.outputs ≠ [])
    (hlength : results.length = ps.outputs.length) (htmp : tmp ≠ [])
    (hlast : tmp.getLast? ≠ some '/') (hran : Ran ex r)
    (hex : ex = ⟨0, (ps.outputs.map (outputTensor onnxNames)).flatMap tensorLine,
      OrderedMap.fill disk.saved (disk.stored
        (((ps.outputs.map (outputTensor onnxNames)).zip results).map fun q =>
          (outFile (utf8 tmp) q.1.name, q.2)))⟩) :
    ∃ bytes, results[0]? = some bytes ∧ judge np tmp exp r = compared np exp bytes := by
  have heq : (ps.outputs.map (outputTensor onnxNames)).map (fun io => io.name) =
      names.map utf8 := by
    rw [← hnames.eq, List.map_map]
    rfl
  obtain ⟨s, hs, hstdout⟩ := hran.stdout
  rw [hex, lines_utf8 heq] at hs
  obtain rfl := utf8_injective hs
  have hfiles := hran.file
  rw [hex] at hfiles
  rcases hios : ps.outputs.map (outputTensor onnxNames) with _ | ⟨io, ios⟩
  · exact absurd (List.map_eq_nil_iff.mp hios) hps
  · rw [hios] at heq hstdout hfiles
    rw [← List.length_map (outputTensor onnxNames), hios] at hlength
    rcases names with _ | ⟨name, names⟩
    · exact absurd heq (by simp)
    rcases results with _ | ⟨bytes, results⟩
    · exact absurd hlength (by simp)
    obtain ⟨hname, hnamesEq⟩ := List.cons.inj heq
    have hwords : ∀ o ∈ (name, io) :: names.zip ios, IsWord o.1 := by
      intro o ho
      have hzip : o ∈ (name :: names).zip (io :: ios) := ho
      exact hnames.words _ (List.of_mem_zip hzip).1
    have hfirst : ∀ name' ∈ names, san name ≠ san name' := fun name' hname' he =>
      hnames.first name' hname' (congrArg some he)
    have hfile := (hfiles _).trans (file_first hdisk hnamesEq hname hfirst htmp hlast)
    refine ⟨bytes, rfl, ?_⟩
    rw [judge, hstdout, List.zip_cons_cons, outputName_eq hwords]
    simp only [bind, Except.bind, hfile]
    rfl

end Case

/-- If the names of a case fit, its files can be read and written, and the runner ends, then the
scoreboard reports a failure of the runner when its exit code is not zero, and else compares the
array expected with the first output that the model computes of the arrays of the case. -/
theorem runCase_compares (env : Surroundings M) (D : Device M) (typeSize : Int32 → ℕ)
    (ps : ParameterSet) (model : Model) (g : Gpu) (ins : Inputs) (disk : Disk) (m : Mem)
    (files : TempFiles) (f : OpenFile) (np : Numpy α) (runner : Str)
    (run : Invocation → Except Str (Option Completed)) (d : CaseDir α) (tmp : Str) (c : Case α)
    (exp : α) (exps : List α) (names : List Str) (ex : Exit) (r : Completed)
    (hcase : loadCase d = .ok (some c)) (hexp : c.outs = exp :: exps)
    (hobject : (c.ins ++ c.outs).any np.isObject = false) (hfits : Fits np c ps)
    (htmp : tmp ≠ []) (hlast : tmp.getLast? ≠ some '/')
    (hfile : ins.file (utf8 c.model) = some f)
    (hmodel : StaticModel env D typeSize ps (modelOf f) model)
    (hg : ∀ e : ShimEngine M, e.ios = tensors ps (env.onnxNames (modelOf f)) → g.Works e)
    (houts : (model (named (caseInputs np c ps))).map List.length =
      ps.outputs.map fun q => q.2.bytes.toNat)
    (hnames : OutputNames ps (env.onnxNames (modelOf f)) names)
    (hreads : Reads ins (c.invocation np runner tmp))
    (hdisk : ∀ path bytes, disk.write path bytes = some bytes)
    (hmain : inferMain env D g ins disk ((c.invocation np runner tmp).args.map utf8) m files =
      some ex)
    (hran : Ran ex r) (hrun : run (c.invocation np runner tmp) = .ok (some r)) :
    ∃ bytes, (model (named (caseInputs np c ps)))[0]? = some bytes ∧
      runCase np runner run d tmp =
        if ex.code = 0 then compared np exp bytes else .ok (.fail, runFailure r.stderr) := by
  have hfinish : runCase np runner run d tmp = finish np tmp exp (.ok (some r)) := by
    simp only [runCase, hcase, bind, Except.bind, hexp] at hobject ⊢
    rw [if_neg (not_not.mpr hfits.length), if_neg (by simp [hobject]), hrun]
  have hlength : (model (named (caseInputs np c ps))).length = ps.outputs.length := by
    simpa only [List.length_map] using congrArg List.length houts
  rw [hfinish, finish, hran.returncode]
  by_cases hcode : ex.code = 0
  · rw [map_args] at hmain
    have hsizes : ∀ name s, (.input name, s) ∈ ps.params → ∀ raw,
        ins.readFile (fileFor ((inputArgs c tmp).filterMap splitArg) name) = some raw →
          s.bytes.toNat ≤ raw.length := by
      intro name s hs raw hraw
      obtain ⟨q, -, hsize, hread⟩ := readFile_input hfits hreads (mem_inputsOf.mpr hs)
      rwa [← Option.some.inj (hread.symm.trans hraw)]
    rw [← fileInputs_eq hfits hreads] at houts hlength ⊢
    obtain ⟨-, hex⟩ := eq_of_inferMain hfile hmodel hg houts hsizes hmain hcode
    obtain ⟨bytes, hbytes, hjudge⟩ := judge_report np exp hdisk hnames hmodel.outputs hlength htmp
      hlast hran hex
    refine ⟨bytes, hbytes, ?_⟩
    rw [if_neg (by simp [hcode]), if_pos hcode, hjudge]
  · have hpos : 0 < (model (named (caseInputs np c ps))).length :=
      hlength ▸ List.length_pos_of_ne_nil hmodel.outputs
    refine ⟨_, List.getElem?_eq_getElem hpos, ?_⟩
    have hcode' : ex.code.toInt ≠ 0 := fun he => hcode (Int32.toInt_inj.mp he)
    rw [if_pos hcode', if_neg hcode]
    rfl

/-- Arrays that are their own bytes. -/
def bytesNumpy : Numpy Bytes where
  isObject _ := false
  tobytes := id
  size := List.length
  isFloating _ := false
  frombuffer bytes _ := .ok bytes
  reshape got _ := got
  allclose got exp := got = exp
  arrayEqual got exp := got = exp

/-- A case with one input, and an output that has the bytes of the input from last to first. -/
def reverseCase : CaseDir Bytes where
  path := str "case"
  model := some (.ok ⟨[], [str "x"], []⟩)
  dataSet := some ⟨[outputFile 0, inputFile 0], fun f =>
    .ok (if f = inputFile 0 then [1, 2, 3, 4, 5, 6, 7, 8] else [8, 7, 6, 5, 4, 3, 2, 1])⟩

/-- The files of the case, as the runner reads them. -/
def reverseInputs : Inputs where
  file p :=
    if p = text "case/model.onnx" then some ⟨1, [1]⟩
    else if p = utf8 (inputPath (str "t") 3) then some ⟨8, [1, 2, 3, 4, 5, 6, 7, 8]⟩
    else none
  allocate _ := true

theorem runCase_compares_reverse :
    let ps := ParameterSet.withOutputs [0] (by decide) (by decide)
    let D : Device (Migraphx.ofModel ps.entries [] reverseModel) := .ofModel reverseModel
    let c : Case Bytes := ⟨str "case/model.onnx", str "?", [str "x"], [[1, 2, 3, 4, 5, 6, 7, 8]],
      [[8, 7, 6, 5, 4, 3, 2, 1]]⟩
    let inv := c.invocation bytesNumpy (str "infer") (str "t")
    ∃ ex, inferMain (plainSurroundings ps reverseModel) D .every16 reverseInputs .plain
        (inv.args.map utf8) (Mem.ofBytes 0 []) [] = some ex ∧
      let r : Completed := ⟨ex.code.toInt, str "OUT output_0 0 2\n", [], fun path =>
        ex.files[utf8 path]?⟩
      runCase bytesNumpy (str "infer") (fun _ => .ok (some r)) reverseCase (str "t") =
        .ok (.pass, []) := by
  intro ps D c inv
  have hmain : ((inferMain (plainSurroundings ps reverseModel) D .every16 reverseInputs .plain
      (inv.args.map utf8) (Mem.ofBytes 0 []) []).map fun ex => (ex.code, ex.stdout)) =
        some (0, text "OUT output_0 0 2\n") := by decide +kernel
  obtain ⟨ex, hex, hreport⟩ := Option.map_eq_some_iff.mp hmain
  obtain ⟨hcode, hstdout⟩ := Prod.mk.inj hreport
  refine ⟨ex, hex, ?_⟩
  intro r
  have hfits : Fits bytesNumpy c ps := ⟨rfl, by decide, by decide, by decide +kernel⟩
  have hnames : OutputNames ps [] [str "output_0"] := by
    refine ⟨by decide +kernel, List.forall_mem_singleton.mpr ?_, nofun⟩
    exact ⟨by decide, by simp [str, isSpace]⟩
  have hpath : utf8 c.model = text "case/model.onnx" := by decide +kernel
  have hfile : reverseInputs.file (utf8 c.model) = some ⟨1, [1]⟩ := by
    simp only [reverseInputs, hpath, if_true]
  have hreads : Reads reverseInputs inv := by
    intro path bytes hmem
    obtain ⟨rfl, rfl⟩ := Prod.mk.inj (List.mem_singleton.mp hmem)
    decide +kernel
  have hread : str "OUT output_0 0 2\n" = newlines (str "OUT output_0 0 2\n") := by
    decide +kernel
  have htext : utf8 (str "OUT output_0 0 2\n") = text "OUT output_0 0 2\n" := by decide +kernel
  have hran : Ran ex r := ⟨rfl, ⟨_, htext.trans hstdout.symm, hread⟩, fun _ => rfl⟩
  obtain ⟨bytes, hbytes, hrun⟩ := runCase_compares _ D (fun _ => 4) ps reverseModel .every16
    reverseInputs .plain (Mem.ofBytes 0 []) [] ⟨1, [1]⟩ bytesNumpy (str "infer")
    (fun _ => .ok (some r)) reverseCase (str "t") c _ [] [str "output_0"] ex r (by decide +kernel)
    rfl (by decide) hfits (by decide) (by decide) hfile (staticModel_plain reverseModel _)
    every16_works (by decide +kernel) hnames hreads (fun _ _ => rfl) hex hran rfl
  have hreverse : (reverseModel (named (caseInputs bytesNumpy c ps)))[0]? =
      some [8, 7, 6, 5, 4, 3, 2, 1] := by decide +kernel
  rw [hrun, if_pos hcode, ← Option.some.inj (hreverse.symm.trans hbytes)]
  rfl

end TrtShim.Tools
