import TrtShim.Backend.ZeroCopy
import TrtShim.Onnx.OutputNames

/-! # Matching names with outputs

`onnx_output_names` collects every name field that it meets, while `split_io`
takes the entry at the index of an output. The two agree on an output when the
name field at its place in the whole list is as good as the last one of its own
entry.
-/

namespace TrtShim.Onnx

open Wire Backend

/-- The name of an output that has this name field, if any. -/
def nameOr (k : ℕ) (field : Option Bytes) : Bytes :=
  match field with
  | some name => if name ≠ [] then name else fallbackName k
  | none => fallbackName k

/-- The last name field of an output entry, which is the one that counts. -/
def lastName (values : List Message) (k : ℕ) : Option Bytes :=
  (values[k]?).bind fun v => (v.delimited 1).getLast?

/-- The name field at a place among those of all output entries. -/
def nthName (values : List Message) (k : ℕ) : Option Bytes :=
  (values.flatMap fun v => v.delimited 1)[k]?

theorem realName_eq_nameOr (names : List Bytes) {k : ℕ} (hk : k < 2 ^ 31) :
    realName names k = nameOr k names[k]? := realName_natCast names hk

/-- Entries with one name field each are aligned. -/
theorem nthName_eq_lastName {values : List Message} {k : ℕ} (hk : k < values.length)
    (h : ∀ v ∈ values.take (k + 1), (v.delimited 1).length = 1) :
    nthName values k = lastName values k := by
  induction values generalizing k with
  | nil => simp at hk
  | cons v values ih =>
    obtain ⟨name, hname⟩ := List.length_eq_one_iff.mp (h v (by simp))
    cases k with
    | zero => simp [nthName, lastName, hname]
    | succ k =>
      have hrest := ih (by simpa using hk) fun v' hv' =>
        h v' (by rw [List.take_succ_cons]; exact List.mem_cons_of_mem _ hv')
      simpa [nthName, lastName, hname] using hrest

/-- The walk returns one list of names. With it, `split_io` gives every output the name of its own
entry exactly when, for every index of an output, the name field at that place in the whole graph
and the last name field of the entry at that place spell the same name, as they do when each entry
up to that place has one name field. -/
theorem splitIo_names_iff (m : Mem) (data : UInt64) (model graph : Message)
    (values : List Message) (ps : ParameterSet) (hm : Encoded m data model)
    (hgraph : model.delimited 7 = [graph.encode])
    (hvalues : graph.delimited 12 = values.map Message.encode) :
    ∃ names, (∀ names', ReturnsNames m data (UInt64.ofNat model.encode.length) names' ↔
        names' = names) ∧
      (splitIo ps.entries names = some ((inputsOf ps.params).map inputTensor,
        ps.outputs.map fun p => ioFromShape (nameOr p.1 (lastName values p.1)) p.2 .kOutput) ↔
      ∀ k s, (.output k, s) ∈ ps.params →
        nameOr k (nthName values k) = nameOr k (lastName values k)) ∧
      ∀ k, k < values.length → (∀ v ∈ values.take (k + 1), (v.delimited 1).length = 1) →
        nthName values k = lastName values k := by
  have hreturns := returnsNames_flatMap hm hgraph hvalues
  refine ⟨_, fun names' => ⟨fun h => h.unique hreturns, fun h => h ▸ hreturns⟩, ?_,
    fun _ => nthName_eq_lastName⟩
  have hio {name name' : Bytes} {s : Shape} :
      ioFromShape name s .kOutput = ioFromShape name' s .kOutput ↔ name = name' :=
    ⟨fun h => congrArg IOTensor.name h, fun h => h ▸ rfl⟩
  rw [ps.splitIo_entries, Option.some.injEq, Prod.mk.injEq, and_iff_right rfl,
    List.map_inj_left]
  simp only [Prod.forall, ps.mem_outputs, outputTensor, hio]
  refine forall₃_congr fun k s hk => ?_
  rw [realName_eq_nameOr _ (ps.output_lt k s hk)]
  rfl

/-- An output entry with one name of one byte. -/
def namedValue (name : UInt8) : Message := [.short 1 (by decide) [name] (by simp)]

/-- A graph with two output entries. -/
def graphOf (v v' : Message) (h : v.encode.length < 16) (h' : v'.encode.length < 16) : Message :=
  [.short 12 (by decide) v.encode (by omega), .short 12 (by decide) v'.encode (by omega)]

theorem splitIo_names_pair :
    let values : List Message := [namedValue 97, namedValue 98]
    let graph := graphOf (namedValue 97) (namedValue 98) (by decide) (by decide)
    let model : Message := [.short 7 (by decide) graph.encode (by decide)]
    let ps := ParameterSet.withOutputs [1, 0] (by decide) (by decide)
    ∃ names, ReturnsNames (.ofBytes 4096 model.encode) 4096 (UInt64.ofNat model.encode.length)
        names ∧
      splitIo ps.entries names = some ((inputsOf ps.params).map inputTensor,
        ps.outputs.map fun p => ioFromShape (nameOr p.1 (lastName values p.1)) p.2 .kOutput) := by
  intro values graph model ps
  have hm : Encoded (.ofBytes 4096 model.encode) 4096 model :=
    ⟨by decide +kernel, by decide +kernel⟩
  obtain ⟨names, hnames, hiff, -⟩ := splitIo_names_iff _ 4096 model graph values ps hm rfl rfl
  exact ⟨names, (hnames names).mpr rfl,
    hiff.mpr (ParameterSet.forall_output_withOutputs (by decide +kernel))⟩

/-- The first output entry has no name, so the name of the second one goes to the first output. -/
theorem splitIo_names_skewed :
    let values : List Message := [[], namedValue 121]
    let graph := graphOf [] (namedValue 121) (by decide) (by decide)
    let model : Message := [.short 7 (by decide) graph.encode (by decide)]
    let ps := ParameterSet.withOutputs [0, 1] (by decide) (by decide)
    ReturnsNames (.ofBytes 4096 model.encode) 4096 (UInt64.ofNat model.encode.length) [[121]] ∧
      (splitIo ps.entries [[121]]).map (fun io => io.2.map IOTensor.name) =
        some [[121], text "output_1"] ∧
      [0, 1].map (fun k => nameOr k (lastName values k)) = [text "output_0", [121]] := by
  intro values graph model ps
  have hm : Encoded (.ofBytes 4096 model.encode) 4096 model :=
    ⟨by decide +kernel, by decide +kernel⟩
  have hnames : ReturnsNames _ 4096 _ (values.flatMap fun v => v.delimited 1) :=
    returnsNames_flatMap hm rfl rfl
  exact ⟨hnames, by decide +kernel, by decide +kernel⟩

end TrtShim.Onnx
