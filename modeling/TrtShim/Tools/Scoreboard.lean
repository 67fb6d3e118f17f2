import TrtShim.Bytes.Words
import TrtShim.Text.Strings

/-! # The conformance scoreboard

A test case is a model with a directory of tensor files. The files are read in the
order of their names, and the arrays of the input files are paired with the inputs
of the graph in the order of the graph. With more than ten inputs the two orders
differ.
-/

namespace TrtShim.Tools

open Str

variable {α : Type}

/-- The names in an ONNX graph, and the operators of its nodes. -/
structure Graph where
  initializer : List Str
  input : List Str
  node : List Str

/-- The directory of the tensor files. -/
structure DataSet (α : Type) where
  /-- `os.listdir`. -/
  listdir : List Str
  /-- `onnx.load_tensor` and `numpy_helper.to_array`; either may raise an exception. -/
  array : Str → Except Str α

/-- The directory of a test case. -/
structure CaseDir (α : Type) where
  path : Str
  /-- `onnx.load` of `model.onnx`, when there is such a file. -/
  model : Option (Except Str Graph)
  dataSet : Option (DataSet α)

/-- What `load_case` returns. -/
structure Case (α : Type) where
  model : Str
  op : Str
  inNames : List Str
  ins : List α
  outs : List α
  deriving DecidableEq

/-- The inputs of a graph that are no initializers. -/
def Graph.inNames (g : Graph) : List Str := g.input.filter fun i => i ∉ g.initializer

/-- The body of the loop of `load_case` over the files. -/
def loadFile (ds : DataSet α) : List α × List α → Str → Except Str (List α × List α)
  | (ins, outs), f => do
    let arr ← ds.array f
    return if (str "input").isPrefixOf f then (ins ++ [arr], outs) else (ins, outs ++ [arr])

/-- `load_case`. -/
def loadCase (d : CaseDir α) : Except Str (Option (Case α)) :=
  match d.model, d.dataSet with
  | some model, some ds => do
    let g ← model
    let (ins, outs) ← (sorted ds.listdir).foldlM (loadFile ds) ([], [])
    return some {
      model := joinPath d.path (str "model.onnx")
      op := g.node.head?.getD (str "?")
      inNames := g.inNames
      ins := ins
      outs := outs }
  | _, _ => return none

/-- The graph inputs with the arrays that `run_case` binds to them. -/
def Case.pairs (c : Case α) : List (Str × α) := c.inNames.zip c.ins

/-- What `run_case` uses of numpy. -/
structure Numpy (α : Type) where
  isObject : α → Bool
  tobytes : α → Bytes
  size : α → ℕ
  isFloating : α → Bool
  /-- `np.frombuffer` with the `dtype` of an array. -/
  frombuffer : Bytes → α → Except Str α
  /-- Reshape to the shape of an array. -/
  reshape : α → α → α
  allclose : α → α → Bool
  arrayEqual : α → α → Bool

/-- The command that `run_case` runs, and the files that it has written before. -/
structure Invocation where
  args : List Str
  files : List (Str × Bytes)
  deriving DecidableEq

/-- A finished runner, with the files that it leaves. -/
structure Completed where
  returncode : ℤ
  stdout : Str
  stderr : Str
  file : Str → Option Bytes

inductive Status where
  | pass
  | fail
  | skip
  deriving DecidableEq

/-- A status with its reason. -/
abbrev Verdict := Status × Str

/-- The file for the input that stands at this place of the command. -/
def inputPath (tmp : Str) (n : ℕ) : Str := joinPath tmp (str "in_" ++ decimal n ++ str ".bin")

/-- The body of the loop of `run_case` over the graph inputs. -/
def bindInput (np : Numpy α) (tmp : Str) (inv : Invocation) (p : Str × α) : Invocation where
  args := inv.args ++ [p.1 ++ '=' :: inputPath tmp inv.args.length]
  files := inv.files ++ [(inputPath tmp inv.args.length, np.tobytes p.2)]

/-- The command for a case. -/
def Case.invocation (np : Numpy α) (runner tmp : Str) (c : Case α) : Invocation :=
  c.pairs.foldl (bindInput np tmp) ⟨[runner, c.model, tmp], []⟩

/-- `san`: the name that the first output line gives, as a file name. -/
def outputName (stdout : Str) : Except Str Str := do
  let lines := (splitlines stdout).filter fun ln => (str "OUT").isPrefixOf ln
  let names ← lines.mapM fun ln =>
    ((split ln)[1]?).elim (.error (str "list index out of range")) .ok
  let name ← names.head?.elim (.error (str "list index out of range")) .ok
  return name.map fun ch => if ch ∈ str "/: " then '_' else ch

/-- The comparison of the first output with the array expected. -/
def judge (np : Numpy α) (tmp : Str) (exp : α) (r : Completed) : Except Str Verdict := do
  let san ← outputName r.stdout
  match r.file (joinPath tmp (san ++ str ".bin")) with
  | none => return (.fail, str "no-output")
  | some bytes =>
    let got ← np.frombuffer bytes exp
    if np.size got ≠ np.size exp then
      return (.fail, str "size " ++ decimal (np.size got) ++ str "!=" ++ decimal (np.size exp))
    let got := np.reshape got exp
    let ok := if np.isFloating exp then np.allclose got exp else np.arrayEqual got exp
    return if ok then (.pass, []) else (.fail, str "mismatch")

/-- The reason given for a runner that failed. -/
def runFailure (stderr : Str) : Str :=
  let line := (((strip stderr).splitOn '\n').getLast?.getD []).take 40
  str "run:" ++ if line = [] then str "rc" else line

/-- What `run_case` makes of writing the files and of `subprocess.run`, which may raise an
exception; no value stands for a timeout. -/
def finish (np : Numpy α) (tmp : Str) (exp : α) :
    Except Str (Option Completed) → Except Str Verdict
  | .error what => .error what
  | .ok none => return (.fail, str "timeout")
  | .ok (some r) =>
    if r.returncode ≠ 0 then return (.fail, runFailure r.stderr) else judge np tmp exp r

/-- `run_case`. -/
def runCase (np : Numpy α) (runner : Str) (run : Invocation → Except Str (Option Completed))
    (d : CaseDir α) (tmp : Str) : Except Str Verdict := do
  match ← loadCase d with
  | none => return (.skip, str "no-data")
  | some c =>
    match c.outs with
    | [] => return (.skip, str "io-shape")
    | exp :: _ =>
      if c.ins.length ≠ c.inNames.length then return (.skip, str "io-shape")
      else if (c.ins ++ c.outs).any np.isObject then return (.skip, str "non-tensor")
      else finish np tmp exp (run (c.invocation np runner tmp))

/-! ## Tensor files by number -/

/-- `input_<k>.pb`. -/
def inputFile (k : ℕ) : Str := str "input_" ++ decimal k ++ str ".pb"

/-- `output_<k>.pb`. -/
def outputFile (k : ℕ) : Str := str "output_" ++ decimal k ++ str ".pb"

/-- A directory with the files of `m` inputs and `n` outputs, listed in any order. -/
structure TensorFiles (ds : DataSet α) (m n : ℕ) (input output : ℕ → α) : Prop where
  listed : ds.listdir.Perm ((List.range m).map inputFile ++ (List.range n).map outputFile)
  inputs : ∀ k < m, ds.array (inputFile k) = .ok (input k)
  outputs : ∀ k < n, ds.array (outputFile k) = .ok (output k)

theorem inputFile_le_outputFile (j k : ℕ) : inputFile j ≤ outputFile k :=
  le_of_lt (List.Lex.rel (by decide))

theorem outputFile_injective : Function.Injective outputFile := fun _ _ h =>
  decimal_injective (List.append_cancel_left (List.append_cancel_right h))

theorem outputFile_zero_le (k : ℕ) : outputFile 0 ≤ outputFile k := by
  rw [outputFile, outputFile, List.append_assoc, List.append_assoc]
  exact append_le_append _ (decimal_zero_le (by decide) _ k)

/-- Sorting puts the input files before the output files. -/
theorem sorted_tensorFiles {l : List Str} {m n : ℕ}
    (h : l.Perm ((List.range m).map inputFile ++ (List.range n).map outputFile)) :
    sorted l = (byName inputFile m).map inputFile ++ (byName outputFile n).map outputFile := by
  apply sorted_eq
  · exact ((perm_byName.map _).append (perm_byName.map _)).trans h.symm
  · rw [List.pairwise_append]
    refine ⟨pairwise_byName, pairwise_byName, ?_⟩
    intro _ hj _ hk
    obtain ⟨j, -, rfl⟩ := List.mem_map.mp hj
    obtain ⟨k, -, rfl⟩ := List.mem_map.mp hk
    exact inputFile_le_outputFile j k

/-- The first output in the order of the file names is the output with number zero. -/
theorem head?_byName_outputFile {n : ℕ} (hn : 0 < n) :
    (byName outputFile n).head? = some 0 := by
  have hzero : 0 ∈ byName outputFile n := mem_byName.mpr hn
  have hsorted : ((byName outputFile n).map outputFile).Pairwise (· ≤ ·) := pairwise_byName
  rcases hl : byName outputFile n with _ | ⟨k, ks⟩
  · exact absurd (hl ▸ hzero) List.not_mem_nil
  · rw [hl, List.map_cons, List.pairwise_cons] at hsorted
    rw [hl, List.mem_cons] at hzero
    rw [List.head?_cons, Option.some.injEq]
    rcases hzero with rfl | hmem
    · rfl
    · have hle := hsorted.1 _ (List.mem_map_of_mem hmem)
      exact outputFile_injective (le_antisymm hle (outputFile_zero_le k))

/-- The input files sort in the order of their numbers exactly if there are at most ten. -/
theorem byName_inputFile_iff {m : ℕ} : byName inputFile m = List.range m ↔ m ≤ 10 := by
  rw [byName_eq_range_iff]
  constructor
  · intro h
    by_contra hm
    have hle := List.pairwise_iff_getElem.mp h 2 10 (by simp; omega) (by simp; omega) (by decide)
    rw [List.getElem_range, List.getElem_range] at hle
    exact absurd hle (by decide)
  · intro hm
    have hten : (List.range 10).Pairwise fun a b => inputFile a ≤ inputFile b := by decide +kernel
    exact hten.sublist (List.range_sublist.mpr hm)

section LoadCase

variable {ds : DataSet α} {m n : ℕ} {input output : ℕ → α}

theorem foldlM_loadFile (isInput : Bool) {file : ℕ → Str} {value : ℕ → α} {ks : List ℕ}
    (hkind : ∀ k, (str "input").isPrefixOf (file k) = isInput)
    (h : ∀ k ∈ ks, ds.array (file k) = .ok (value k)) (ins outs : List α) :
    (ks.map file).foldlM (loadFile ds) (ins, outs) =
      .ok (if isInput then (ins ++ ks.map value, outs) else (ins, outs ++ ks.map value)) := by
  induction ks generalizing ins outs with
  | nil => cases isInput <;> simp <;> rfl
  | cons k ks ih =>
    rw [List.forall_mem_cons] at h
    have hstep : loadFile ds (ins, outs) (file k) =
        .ok (if isInput then (ins ++ [value k], outs) else (ins, outs ++ [value k])) := by
      simp only [loadFile, h.1, hkind]
      rfl
    rw [List.map_cons, List.foldlM_cons, hstep]
    cases isInput <;> simp [ih h.2, bind, Except.bind]

variable {d : CaseDir α} {g : Graph}

/-- The arrays are loaded in the order of the file names. -/
theorem loadCase_eq (hmodel : d.model = some (.ok g)) (hds : d.dataSet = some ds)
    (h : TensorFiles ds m n input output) : loadCase d = .ok (some {
      model := joinPath d.path (str "model.onnx")
      op := g.node.head?.getD (str "?")
      inNames := g.inNames
      ins := (byName inputFile m).map input
      outs := (byName outputFile n).map output }) := by
  have hin : ∀ k ∈ byName inputFile m, ds.array (inputFile k) = .ok (input k) := fun k hk =>
    h.inputs k (mem_byName.mp hk)
  have hout : ∀ k ∈ byName outputFile n, ds.array (outputFile k) = .ok (output k) := fun k hk =>
    h.outputs k (mem_byName.mp hk)
  have hfold : (sorted ds.listdir).foldlM (loadFile ds) ([], []) =
      .ok ((byName inputFile m).map input, (byName outputFile n).map output) := by
    rw [sorted_tensorFiles h.listed, List.foldlM_append,
      foldlM_loadFile true (fun _ => rfl) hin]
    exact foldlM_loadFile false (fun _ => rfl) hout _ _
  simp only [loadCase, hmodel, hds, hfold, bind, Except.bind]
  rfl

end LoadCase

theorem inputPath_injective (tmp : Str) : Function.Injective (inputPath tmp) := fun m n h => by
  have hfile := joinPath_injective (by simp [str]) (by simp [str]) h
  exact decimal_injective (List.append_cancel_left (List.append_cancel_right hfile))

section RunCase

variable (np : Numpy α) (tmp : Str)

theorem foldl_bindInput (pairs : List (Str × α)) (inv : Invocation) :
    pairs.foldl (bindInput np tmp) inv =
      { args := inv.args ++ (pairs.zipIdx inv.args.length).map fun p =>
          p.1.1 ++ '=' :: inputPath tmp p.2
        files := inv.files ++ (pairs.zipIdx inv.args.length).map fun p =>
          (inputPath tmp p.2, np.tobytes p.1.2) } := by
  induction pairs generalizing inv with
  | nil => simp
  | cons p pairs ih =>
    rw [List.foldl_cons, ih]
    simp [bindInput]

/-- The command names for each graph input a file of its own, which holds the bytes of the array
paired with the input. -/
structure Binds (pairs : List (Str × α)) (inv : Invocation) : Prop where
  arg : ∀ (k : ℕ) name arr, pairs[k]? = some (name, arr) →
    inv.args[k + 3]? = some (name ++ '=' :: inputPath tmp (k + 3))
  file : ∀ (k : ℕ) name arr, pairs[k]? = some (name, arr) →
    ∀ bytes, (inputPath tmp (k + 3), bytes) ∈ inv.files ↔ bytes = np.tobytes arr

theorem Case.invocation_eq (runner : Str) (c : Case α) : c.invocation np runner tmp =
    { args := [runner, c.model, tmp] ++ (c.pairs.zipIdx 3).map fun p =>
        p.1.1 ++ '=' :: inputPath tmp p.2
      files := (c.pairs.zipIdx 3).map fun p => (inputPath tmp p.2, np.tobytes p.1.2) } :=
  foldl_bindInput np tmp c.pairs _

theorem Case.binds_invocation (runner : Str) (c : Case α) :
    Binds np tmp c.pairs (c.invocation np runner tmp) := by
  rw [Case.invocation_eq]
  constructor
  · intro k name arr hk
    rw [Nat.add_comm, List.getElem?_append_right (Nat.le_add_right 3 k), List.getElem?_map]
    simp [hk]
  · intro k name arr hk bytes
    rw [List.mem_map]
    constructor
    · rintro ⟨⟨⟨name', arr'⟩, i⟩, hmem, he⟩
      obtain ⟨hpath, rfl⟩ := Prod.mk.inj he
      obtain rfl : i = k + 3 := inputPath_injective tmp hpath
      obtain ⟨-, hget⟩ := List.mk_mem_zipIdx_iff_le_and_getElem?_sub.mp hmem
      rw [Nat.add_sub_cancel, hk] at hget
      obtain ⟨-, rfl⟩ := Prod.mk.inj (Option.some.inj hget)
      rfl
    · rintro rfl
      refine ⟨((name, arr), k + 3), ?_, rfl⟩
      exact List.mk_mem_zipIdx_iff_le_and_getElem?_sub.mpr ⟨Nat.le_add_left 3 k, hk⟩

end RunCase

theorem zip_map_eq_iff {β : Type} {names : List Str} {js ks : List ℕ} {value : ℕ → β}
    (hjs : js.length = names.length) (hks : ks.length = names.length) :
    names.zip (js.map value) = names.zip (ks.map value) ↔ js.map value = ks.map value := by
  constructor
  · intro h
    have hsnd := congrArg (List.map Prod.snd) h
    rwa [List.map_snd_zip (by simp [hjs]), List.map_snd_zip (by simp [hks])] at hsnd
  · exact fun h => by rw [h]

/-- The file of each number holds the array that string order puts at its place. -/
def SamePlaces (m : ℕ) (input : ℕ → α) : Prop :=
  ∀ k j, (byName inputFile m)[k]? = some j → input j = input k

theorem map_byName_eq_iff {m : ℕ} {input : ℕ → α} :
    (byName inputFile m).map input = (List.range m).map input ↔ SamePlaces m input := by
  have hlen : (byName inputFile m).length = m := length_byName
  constructor
  · intro h k j hj
    have hk : k < m := hlen ▸ (List.getElem?_eq_some_iff.mp hj).1
    have hget := congrArg (fun l => l[k]?) h
    rw [List.getElem?_map, List.getElem?_map, hj, List.getElem?_range hk] at hget
    exact Option.some.inj hget
  · intro h
    ext k : 1
    rw [List.getElem?_map, List.getElem?_map]
    by_cases hk : k < m
    · obtain ⟨j, hj⟩ : ∃ j, (byName inputFile m)[k]? = some j :=
        ⟨_, List.getElem?_eq_getElem (hlen.symm ▸ hk)⟩
      rw [hj, List.getElem?_range hk]
      exact congrArg some (h k j hj)
    · rw [List.getElem?_eq_none (by omega), List.getElem?_eq_none (by simpa using hk)]

theorem samePlaces_of_le {m : ℕ} (hm : m ≤ 10) (input : ℕ → α) : SamePlaces m input := by
  intro k j hj
  rw [byName_inputFile_iff.mpr hm] at hj
  obtain ⟨hk, rfl⟩ := List.getElem?_eq_some_iff.mp hj
  rw [List.getElem_range]

/-- Distinct arrays are at their places only if there are at most ten. -/
theorem le_of_samePlaces {m : ℕ} {input : ℕ → α} (h : SamePlaces m input)
    (hinj : ∀ j < m, ∀ k < m, input j = input k → j = k) : m ≤ 10 := by
  have hlen : (byName inputFile m).length = m := length_byName
  rw [← byName_inputFile_iff]
  apply List.ext_getElem
  · rw [hlen, List.length_range]
  · intro k hk hk'
    have hget := List.getElem?_eq_getElem hk
    have hmem := mem_byName.mp (List.getElem_mem hk)
    rw [List.getElem_range]
    exact hinj _ hmem k (hlen ▸ hk) (h k _ hget)

/-- The case is loaded with the array of the file with its number for each graph input, and with
this array in front of the outputs. -/
def Feeds (d : CaseDir α) (g : Graph) (input : ℕ → α) (exp : α) : Prop :=
  ∃ c, loadCase d = .ok (some c) ∧
    c.pairs = g.inNames.zip ((List.range g.inNames.length).map input) ∧
    c.outs.head? = some exp

/-- For a model and its tensor files, each graph input gets the array of the file with its number
exactly if there are at most ten inputs, or string order only moves files to the places of files
with the same array. Either way the command of `run_case` binds the graph inputs to the arrays
loaded for them, and the array of output zero is the one that it compares with the first output. -/
theorem feeds_iff (d : CaseDir α) (g : Graph) (ds : DataSet α) (n : ℕ) (input output : ℕ → α)
    (hmodel : d.model = some (.ok g)) (hds : d.dataSet = some ds)
    (hfiles : TensorFiles ds g.inNames.length n input output) (hn : 0 < n) :
    (Feeds d g input (output 0) ↔ g.inNames.length ≤ 10 ∨ SamePlaces g.inNames.length input) ∧
    ((∀ j < g.inNames.length, ∀ k < g.inNames.length, input j = input k → j = k) →
      (Feeds d g input (output 0) ↔ g.inNames.length ≤ 10)) ∧
    ∃ c, loadCase d = .ok (some c) ∧ ∀ np runner run tmp,
      (∀ a ∈ c.ins ++ c.outs, np.isObject a = false) →
        ∃ inv, runCase np runner run d tmp = finish np tmp (output 0) (run inv) ∧
          Binds np tmp c.pairs inv := by
  have hcase := loadCase_eq hmodel hds hfiles
  obtain ⟨ks, hks⟩ := List.head?_eq_some_iff.mp (head?_byName_outputFile hn)
  have hfeeds : Feeds d g input (output 0) ↔ SamePlaces g.inNames.length input := by
    rw [Feeds, hcase, ← map_byName_eq_iff, ← zip_map_eq_iff length_byName List.length_range]
    constructor
    · rintro ⟨c, hc, hpairs, -⟩
      obtain rfl := Option.some.inj (Except.ok.inj hc)
      exact hpairs
    · exact fun hpairs => ⟨_, rfl, hpairs, by rw [hks]; rfl⟩
  refine ⟨?_, ?_, _, hcase, ?_⟩
  · rw [hfeeds]
    constructor
    · exact .inr
    · rintro (hm | h)
      · exact samePlaces_of_le hm input
      · exact h
  · intro hinj
    rw [hfeeds]
    constructor
    · exact fun h => le_of_samePlaces h hinj
    · exact fun hm => samePlaces_of_le hm input
  · intro np runner run tmp hobject
    have hany := List.any_eq_false.mpr fun a ha => Bool.eq_false_iff.mp (hobject a ha)
    refine ⟨_, ?_, Case.binds_invocation np tmp runner _⟩
    simp only [runCase, hcase, bind, Except.bind, hks, List.map_cons] at hany ⊢
    rw [if_neg (by simp [length_byName]), if_neg (by simp [hany])]

/-- A graph with the inputs `x0`, `x1` and so on. -/
def graphOf (m : ℕ) : Graph := ⟨[], (List.range m).map fun k => str "x" ++ decimal k, []⟩

/-- Tensor files that hold their own numbers, and one output. -/
def numbered (m : ℕ) : DataSet ℕ where
  listdir := outputFile 0 :: (List.range m).reverse.map inputFile
  array f := .ok (((List.range m).find? fun k => inputFile k = f).getD 100)

theorem feeds_two :
    Feeds ⟨str "case", some (.ok (graphOf 2)), some (numbered 2)⟩ (graphOf 2) id 100 := by
  have hfiles : TensorFiles (numbered 2) (graphOf 2).inNames.length 1 id fun _ => 100 :=
    ⟨by decide +kernel, by decide +kernel, by decide +kernel⟩
  exact (feeds_iff _ (graphOf 2) (numbered 2) 1 id (fun _ => 100) rfl rfl hfiles
    Nat.zero_lt_one).1.mpr (.inl (by decide))

/-- With eleven inputs the third one gets the array of the last file. -/
theorem not_feeds_eleven :
    let d : CaseDir ℕ := ⟨str "case", some (.ok (graphOf 11)), some (numbered 11)⟩
    TensorFiles (numbered 11) (graphOf 11).inNames.length 1 id (fun _ => 100) ∧
      (∃ c, loadCase d = .ok (some c) ∧ c.pairs[2]? = some (str "x2", 10)) ∧
      ¬ Feeds d (graphOf 11) id 100 := by
  intro d
  have hfiles : TensorFiles (numbered 11) (graphOf 11).inNames.length 1 id fun _ => 100 :=
    ⟨by decide +kernel, by decide +kernel, by decide +kernel⟩
  have hcase := loadCase_eq (d := d) rfl rfl hfiles
  refine ⟨hfiles, ⟨_, hcase, by decide +kernel⟩, ?_⟩
  rintro ⟨c, hc, hpairs, -⟩
  obtain rfl := Option.some.inj (Except.ok.inj (hcase.symm.trans hc))
  exact absurd hpairs (by decide +kernel)

end TrtShim.Tools
