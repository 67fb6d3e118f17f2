import TrtShim.Onnx.PbReader
import TrtShim.Runs.Machine

/-! # Recovering the output names of a model

`onnx_output_names` runs three nested loops over the fields of the model, of its
graph and of the graph's outputs. A step of `Walk` is one pass of the innermost
loop that is running. On the encoding of a model the walk returns the names of
the outputs in order.
-/

namespace TrtShim.Onnx

open Wire PbReader

/-- The state of `onnx_output_names` between two passes of its loops. -/
inductive Walk where
  | top (r : PbReader)
  | graph (g : PbReader) (names : List Bytes)
  | value (g r : PbReader) (names : List Bytes)
  | done (names : List Bytes)
  deriving DecidableEq

namespace Walk

/-- The state in which `onnx_output_names` starts. -/
def start (data n : UInt64) : Walk := .top (ofRange data n)

/-- A pass of the running loop. A graph at the null pointer counts as no graph. -/
def step (m : Mem) : Walk → Walk
  | .top r =>
    match r.next m 7 with
    | .eof => .done []
    | .found s len _ => if s = 0 then .done [] else .graph (ofRange s len) []
    | .skipped r => .top r
  | .graph g names =>
    match g.next m 12 with
    | .eof => .done names
    | .found s len g => .value g (ofRange s len) names
    | .skipped g => .graph g names
  | .value g r names =>
    match r.next m 1 with
    | .eof => .graph g names
    | .found s len r => .value g r (names ++ [m.read s len.toNat])
    | .skipped r => .value g r names
  | .done names => .done names

end Walk

/-- `onnx_output_names` on the bytes at an address returns these names. -/
def ReturnsNames (m : Mem) (data n : UInt64) (names : List Bytes) : Prop :=
  Machine.Reaches (Walk.step m) (.start data n) (.done names)

theorem ReturnsNames.unique {m : Mem} {data n : UInt64} {names names' : List Bytes}
    (h : ReturnsNames m data n names) (h' : ReturnsNames m data n names') : names = names' :=
  Walk.done.inj (h.eq_of_fixed h' rfl rfl)

namespace Walk

open Machine

variable {m : Mem} {names : List Bytes}

/-- The loop over the fields of an output collects its names. -/
theorem value_reaches {g r : PbReader} {fields : Message} (hr : At m fields.encode r) :
    Reaches (step m) (.value g r names) (.graph g (names ++ fields.delimited 1)) := by
  induction fields generalizing r names with
  | nil =>
    have hstep : step m (.value g r names) = .graph g names := by
      simp only [step, next_at_end hr]
    simpa [Message.delimited] using Reaches.head hstep .refl
  | cons f fields ih =>
    have hrest := hr.advance
    rcases next_at 1 1 rfl (by decide) hr with
      ⟨s, len, xs, hnext, hf, -, hread, -⟩ | ⟨hnext, hf⟩
    · have hstep : step m (.value g r names) =
          .value g (r.advance f.encode.length) (names ++ [xs]) := by
        simp only [step, hnext, hread]
      simpa [Message.delimited, hf] using Reaches.head hstep (ih hrest)
    · have hstep : step m (.value g r names) = .value g (r.advance f.encode.length) names := by
        simp only [step, hnext]
      simpa [Message.delimited, hf] using Reaches.head hstep (ih hrest)

/-- The loop over the fields of the graph collects the names of its outputs. -/
theorem graph_reaches {g : PbReader} {fields : Message} {values : List Message}
    (hg : At m fields.encode g) (hvalues : fields.delimited 12 = values.map Message.encode) :
    Reaches (step m) (.graph g names) (.done (names ++ values.flatMap fun v => v.delimited 1)) := by
  induction fields generalizing g names values with
  | nil =>
    obtain rfl : values = [] := by simpa [Message.delimited, eq_comm] using hvalues
    have hstep : step m (.graph g names) = .done names := by
      simp only [step, next_at_end hg]
    simpa using Reaches.head hstep .refl
  | cons f fields ih =>
    have hrest := hg.advance
    rcases next_at 12 12 rfl (by decide) hg with
      ⟨s, len, xs, hnext, hf, hxs, -⟩ | ⟨hnext, hf⟩
    · have hstep : step m (.graph g names) =
          .value (g.advance f.encode.length) (ofRange s len) names := by
        simp only [step, hnext]
      rw [Message.delimited, List.filterMap_cons_some hf, eq_comm, List.map_eq_cons_iff] at hvalues
      obtain ⟨v, values, rfl, rfl, hvalues⟩ := hvalues
      rw [List.flatMap_cons, ← List.append_assoc]
      exact .head hstep (.trans (value_reaches hxs) (ih hrest hvalues.symm))
    · have hstep : step m (.graph g names) = .graph (g.advance f.encode.length) names := by
        simp only [step, hnext]
      rw [Message.delimited, List.filterMap_cons_none hf] at hvalues
      exact .head hstep (ih hrest hvalues)

/-- The loop over the fields of the model ends at its first graph. -/
theorem top_reaches {r : PbReader} {fields : Message} {graph : Bytes} {graphs : List Bytes}
    (hr : At m fields.encode r) (hgraph : fields.delimited 7 = graph :: graphs) :
    ∃ g, At m graph g ∧ Reaches (step m) (.top r) (.graph g []) := by
  induction fields generalizing r with
  | nil => simp [Message.delimited] at hgraph
  | cons f fields ih =>
    have hrest := hr.advance
    rcases next_at 7 7 rfl (by decide) hr with
      ⟨s, len, xs, hnext, hf, hxs, -, hs⟩ | ⟨hnext, hf⟩
    · have hstep : step m (.top r) = .graph (ofRange s len) [] := by
        simp only [step, hnext, hs, if_false]
      rw [Message.delimited, List.filterMap_cons_some hf, List.cons.injEq] at hgraph
      exact ⟨_, hgraph.1 ▸ hxs, .head hstep .refl⟩
    · have hstep : step m (.top r) = .top (r.advance f.encode.length) := by
        simp only [step, hnext]
      rw [Message.delimited, List.filterMap_cons_none hf] at hgraph
      obtain ⟨g, hg, hreach⟩ := ih hrest hgraph
      exact ⟨g, hg, .head hstep hreach⟩

end Walk

/-- The encoding of a message lies at an address, inside the address space. -/
structure Encoded (m : Mem) (data : UInt64) (msg : Message) : Prop where
  holds : m.Holds data msg.encode
  fits : data.toNat + msg.encode.length < 2 ^ 64

theorem Encoded.at {m : Mem} {data : UInt64} {msg : Message} (h : Encoded m data msg) :
    At m msg.encode (ofRange data (UInt64.ofNat msg.encode.length)) where
  holds := h.holds
  end_eq := (Mem.toNat_add_ofNat h.fits).symm

/-- All names that the outputs of the first graph carry are returned, in wire order. -/
theorem returnsNames_flatMap {m : Mem} {data : UInt64} {model graph : Message}
    {graphs : List Bytes} {values : List Message} (hm : Encoded m data model)
    (hgraph : model.delimited 7 = graph.encode :: graphs)
    (hvalues : graph.delimited 12 = values.map Message.encode) :
    ReturnsNames m data (UInt64.ofNat model.encode.length)
      (values.flatMap fun v => v.delimited 1) := by
  obtain ⟨g, hg, hreach⟩ := Walk.top_reaches hm.at hgraph
  exact hreach.trans (Walk.graph_reaches hg hvalues)

/-- On the encoding of a model with one graph whose outputs have one name each, exactly the names
in the order of the outputs are returned, whatever the other fields are. -/
theorem returnsNames_encode_iff (m : Mem) (data : UInt64) (model graph : Message)
    (values : List Message) (names : List Bytes) (hm : Encoded m data model)
    (hgraph : model.delimited 7 = [graph.encode])
    (hvalues : graph.delimited 12 = values.map Message.encode)
    (hnames : values.map (Message.delimited 1) = names.map fun name => [name])
    (names' : List Bytes) :
    ReturnsNames m data (UInt64.ofNat model.encode.length) names' ↔ names' = names := by
  have hflat : (values.flatMap fun v => v.delimited 1) = names := by
    rw [List.flatMap_def, hnames, ← List.flatMap_def, List.flatMap_singleton']
  have hreturns := returnsNames_flatMap hm hgraph hvalues
  rw [hflat] at hreturns
  constructor
  · exact fun h => h.unique hreturns
  · rintro rfl
    exact hreturns

/-- A value with the name `y`, after a field of bytes that look like one. -/
theorem returnsNames_encode_single :
    let value : Message := [.short 2 (by decide) [10, 1, 122] (by decide),
      .short 1 (by decide) [121] (by decide)]
    let graph : Message := [.short 12 (by decide) value.encode (by decide +kernel)]
    let model : Message := [.short 8 (by decide) [58, 0] (by decide),
      .short 7 (by decide) graph.encode (by decide +kernel)]
    ReturnsNames (.ofBytes 4096 model.encode) 4096 (UInt64.ofNat model.encode.length) [[121]] := by
  intro value graph model
  exact (returnsNames_encode_iff _ 4096 model graph [value] [[121]]
    ⟨by decide +kernel, by decide +kernel⟩ rfl rfl rfl _).mpr rfl

end TrtShim.Onnx
