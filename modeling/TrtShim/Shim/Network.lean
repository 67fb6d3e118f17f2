import Mathlib.Data.List.Basic
import TrtShim.Backend.Basic

/-! # Parsing models into a network

A parser captures the bytes of a model in its network and fills in the tensors
that `introspect` reports for them. The two steps are separate, so a call that
fails between them leaves bytes and tensors that do not belong together.
-/

namespace TrtShim.Shim

open Backend

structure ShimTensor where
  name : Bytes
  dims : List Int64
  dtype : Int32
  deriving DecidableEq

structure ShimNetwork where
  onnx : Bytes := []
  inputs : List ShimTensor := []
  outputs : List ShimTensor := []
  deriving DecidableEq

/-- A file that `std::fopen` has opened: the position at its end, and the bytes that can be
read from it. -/
structure OpenFile where
  ftell : Int64
  content : Bytes

/-- A call of the parser. A file that cannot be opened is no value. -/
inductive Call where
  | parse (data : Bytes)
  | parseFromFile (file : Option OpenFile)
  | parseWithWeightDescriptors (data : Bytes)

/-- How a `noexcept` call ends. -/
inductive Outcome where
  | returned (success : Bool)
  | terminated
  deriving DecidableEq

/-- A call in a history, with the network before and after it. -/
structure Step where
  before : ShimNetwork
  call : Call
  outcome : Outcome
  after : ShimNetwork

namespace ShimNetwork

/-- `capture`. -/
def capture (net : ShimNetwork) (bytes : Bytes) : ShimNetwork := { net with onnx := bytes }

/-- `populate`. -/
def populate (net : ShimNetwork) (info : IOInfo) : ShimNetwork :=
  { net with
    inputs := info.inputs.map fun t => ⟨t.name, t.dims, t.datatype⟩
    outputs := info.outputs.map fun t => ⟨t.name, t.dims, t.datatype⟩ }

variable (introspect : Bytes → Except String IOInfo) (allocate : UInt64 → Bool)
  (net : ShimNetwork)

/-- `ingest`. An allocation that throws is caught like an exception of `introspect`. -/
def ingest (data : Bytes) : Bool × ShimNetwork :=
  if allocate (UInt64.ofNat data.length) then
    match introspect data with
    | .ok info => (true, (net.capture data).populate info)
    | .error _ => (false, net.capture data)
  else (false, net)

/-- `parseFromFile`. Nothing catches an exception from the allocation of its buffer. -/
def parseFromFile : Option OpenFile → Outcome × ShimNetwork
  | none => (.returned false, net)
  | some f =>
    let n := f.ftell.toUInt64
    if allocate n then
      let bytes := f.content.take n.toNat
      if bytes.length = n.toNat then
        let (success, net) := net.ingest introspect allocate bytes
        (.returned success, net)
      else (.returned false, net)
    else (.terminated, net)

def step : Call → Outcome × ShimNetwork
  | .parse data =>
    let (success, net) := net.ingest introspect allocate data
    (.returned success, net)
  | .parseFromFile file => net.parseFromFile introspect allocate file
  | .parseWithWeightDescriptors data =>
    let (success, net) := net.ingest introspect allocate data
    (.returned success, net)

/-- The history of a sequence of calls, up to a call that terminates the program. -/
def history (net : ShimNetwork) : List Call → List Step
  | [] => []
  | call :: calls =>
    match net.step introspect allocate call with
    | (.returned success, after) =>
      ⟨net, call, .returned success, after⟩ :: history after calls
    | (.terminated, after) => [⟨net, call, .terminated, after⟩]

/-- The tensors are those of the captured bytes. -/
def Captured : Prop :=
  ∃ info, introspect net.onnx = .ok info ∧ net = net.populate info

/-- Ingesting these bytes does not fail between capturing them and filling in the tensors, unless
they are captured already. -/
def IngestSafe (data : Bytes) : Prop :=
  allocate (UInt64.ofNat data.length) = true → (introspect data).isOk = false → data = net.onnx

/-- The condition on a call under which it leaves the network as it was if it fails: its bytes can
be ingested, and the buffer for a file can be allocated. -/
def CallSafe : Call → Prop
  | .parse data => net.IngestSafe introspect allocate data
  | .parseFromFile none => True
  | .parseFromFile (some f) =>
    let n := f.ftell.toUInt64
    allocate n = true ∧ ((f.content.take n.toNat).length = n.toNat →
      net.IngestSafe introspect allocate (f.content.take n.toNat))
  | .parseWithWeightDescriptors data => net.IngestSafe introspect allocate data

end ShimNetwork

/-- The call returned, and has left the network as it was if it failed. -/
def Step.Harmless (s : Step) : Prop :=
  ∃ success, s.outcome = .returned success ∧ (success = false → s.after = s.before)

section Histories

variable {introspect : Bytes → Except String IOInfo} {allocate : UInt64 → Bool}
  {net : ShimNetwork}

theorem capture_eq_self {data : Bytes} : net.capture data = net ↔ data = net.onnx := by
  cases net
  simp [ShimNetwork.capture]

theorem ingest_harmless_iff {data : Bytes} :
    ((net.ingest introspect allocate data).1 = false →
      (net.ingest introspect allocate data).2 = net) ↔
    net.IngestSafe introspect allocate data := by
  unfold ShimNetwork.ingest ShimNetwork.IngestSafe
  by_cases ha : allocate (UInt64.ofNat data.length) = true
  · cases hi : introspect data with
    | ok info => simp [ha, Except.isOk, Except.toBool]
    | error what => simp [ha, Except.isOk, Except.toBool, capture_eq_self]
  · simp [ha]

theorem ingest_captured {data : Bytes} (h : (net.ingest introspect allocate data).1 = true) :
    (net.ingest introspect allocate data).2.Captured introspect := by
  unfold ShimNetwork.ingest at h ⊢
  by_cases ha : allocate (UInt64.ofNat data.length) = true
  · cases hi : introspect data with
    | ok info =>
      rw [if_pos ha]
      exact ⟨info, hi, rfl⟩
    | error what => simp [ha, hi] at h
  · simp [ha] at h

/-- A call is harmless exactly under its condition. -/
theorem step_harmless_iff {call : Call} :
    (∃ success, (net.step introspect allocate call).1 = .returned success ∧
      (success = false → (net.step introspect allocate call).2 = net)) ↔
    net.CallSafe introspect allocate call := by
  cases call with
  | parse data => simp [ShimNetwork.step, ShimNetwork.CallSafe, ingest_harmless_iff]
  | parseWithWeightDescriptors data =>
    simp [ShimNetwork.step, ShimNetwork.CallSafe, ingest_harmless_iff]
  | parseFromFile file =>
    cases file with
    | none => simp [ShimNetwork.step, ShimNetwork.parseFromFile, ShimNetwork.CallSafe]
    | some f =>
      simp only [ShimNetwork.step, ShimNetwork.parseFromFile, ShimNetwork.CallSafe]
      split
      next ha =>
        split
        next hl => simp [ha, hl, ingest_harmless_iff]
        next hl => simp [ha, hl, -List.length_take]
      next ha => simp [ha]

theorem step_captured (introspect : Bytes → Except String IOInfo) (allocate : UInt64 → Bool)
    (net : ShimNetwork) (call : Call)
    (h : (net.step introspect allocate call).1 = .returned true) :
    (net.step introspect allocate call).2.Captured introspect := by
  cases call with
  | parse data => exact ingest_captured (Outcome.returned.inj h)
  | parseWithWeightDescriptors data => exact ingest_captured (Outcome.returned.inj h)
  | parseFromFile file =>
    cases file with
    | none => exact absurd h (by simp [ShimNetwork.step, ShimNetwork.parseFromFile])
    | some f =>
      simp only [ShimNetwork.step, ShimNetwork.parseFromFile] at h ⊢
      split at h
      next ha =>
        split at h
        next hl =>
          simp only [ha, hl, if_true]
          exact ingest_captured (Outcome.returned.inj h)
        next => simp at h
      next => simp at h

/-- Every step of a history is a call on the network before it. -/
theorem step_of_mem_history {calls : List Call} {s : Step}
    (hs : s ∈ net.history introspect allocate calls) :
    s.before.step introspect allocate s.call = (s.outcome, s.after) := by
  induction calls generalizing net with
  | nil => simp [ShimNetwork.history] at hs
  | cons call calls ih =>
    unfold ShimNetwork.history at hs
    split at hs
    next success after hstep =>
      rcases List.mem_cons.mp hs with rfl | hs
      · exact hstep
      · exact ih hs
    next after hstep =>
      obtain rfl := List.mem_singleton.mp hs
      exact hstep

theorem captured_of_harmless {s : Step} (hs : s.Harmless)
    (hstep : s.before.step introspect allocate s.call = (s.outcome, s.after))
    (hbefore : s.before.Captured introspect) : s.after.Captured introspect := by
  obtain ⟨success, houtcome, hfalse⟩ := hs
  cases success with
  | true =>
    have hcap := step_captured introspect allocate s.before s.call (by rw [hstep, houtcome])
    rwa [hstep] at hcap
  | false => rwa [hfalse rfl]

/-- Once the tensors are those of the captured bytes, harmless calls keep them so. -/
theorem history_captured {calls : List Call} (hnet : net.Captured introspect)
    (h : ∀ s ∈ net.history introspect allocate calls, s.Harmless) :
    ∀ s ∈ net.history introspect allocate calls, s.after.Captured introspect := by
  induction calls generalizing net with
  | nil => simp [ShimNetwork.history]
  | cons call calls ih =>
    unfold ShimNetwork.history at h ⊢
    split at h
    next success after hstep =>
      have hafter : after.Captured introspect :=
        captured_of_harmless (h _ List.mem_cons_self) hstep hnet
      exact List.forall_mem_cons.mpr
        ⟨hafter, ih hafter fun s hs => h s (List.mem_cons_of_mem _ hs)⟩
    next after hstep =>
      exact List.forall_mem_cons.mpr
        ⟨captured_of_harmless (h _ List.mem_cons_self) hstep hnet, by simp⟩

/-- From a successful call on, harmless calls keep the tensors those of the captured bytes. -/
theorem history_captured_of_success {calls : List Call}
    (h : ∀ s ∈ net.history introspect allocate calls, s.Harmless) {pre post : List Step} {s : Step}
    (hsplit : net.history introspect allocate calls = pre ++ s :: post)
    (hs : s.outcome = .returned true) : ∀ t ∈ s :: post, t.after.Captured introspect := by
  induction calls generalizing net pre with
  | nil => simp [ShimNetwork.history] at hsplit
  | cons call calls ih =>
    unfold ShimNetwork.history at h hsplit
    split at h
    next success after hstep =>
      rw [hstep] at hsplit
      have hrest (t : Step) (ht : t ∈ after.history introspect allocate calls) : t.Harmless :=
        h t (List.mem_cons_of_mem _ ht)
      cases pre with
      | nil =>
        obtain ⟨rfl, rfl⟩ := List.cons.inj hsplit
        have hcap : after.Captured introspect := by
          have hafter := step_captured introspect allocate net call (by rw [hstep]; exact hs)
          rwa [hstep] at hafter
        exact List.forall_mem_cons.mpr ⟨hcap, history_captured hcap hrest⟩
      | cons p pre => exact ih hrest (List.cons.inj hsplit).2
    next after hstep =>
      rw [hstep] at hsplit
      cases pre with
      | nil =>
        obtain ⟨rfl, -⟩ := List.cons.inj hsplit
        exact absurd hs (by simp)
      | cons p pre => exact absurd (List.cons.inj hsplit).2 (by simp)

/-- In every history of calls on one network, each failing call has returned and left the network
as it was, and after a first success the tensors are always those of the captured bytes, exactly
when the calls meet their condition. -/
theorem history_harmless_iff (introspect : Bytes → Except String IOInfo)
    (allocate : UInt64 → Bool) (calls : List Call) :
    let steps := ShimNetwork.history introspect allocate {} calls
    (∀ s ∈ steps, s.Harmless) ∧
      (∀ pre s post, steps = pre ++ s :: post → s.outcome = .returned true →
        ∀ t ∈ s :: post, t.after.Captured introspect) ↔
    ∀ s ∈ steps, s.before.CallSafe introspect allocate s.call := by
  intro steps
  have hiff (s : Step) (hs : s ∈ steps) :
      s.Harmless ↔ s.before.CallSafe introspect allocate s.call := by
    rw [← step_harmless_iff, step_of_mem_history hs]
    rfl
  constructor
  · exact fun h s hs => (hiff s hs).mp (h.1 s hs)
  · intro h
    have hall (s : Step) (hs : s ∈ steps) : s.Harmless := (hiff s hs).mpr (h s hs)
    exact ⟨hall, fun pre s post hsplit hs => history_captured_of_success hall hsplit hs⟩

/-- A model that parses and then one that does not leave the tensors of the first with the bytes of
the second, and a file without a size ends the program. -/
theorem history_bad_model :
    let introspect : Bytes → Except String IOInfo := fun data =>
      if data = [1] then .ok { inputs := [{ name := text "x", dims := [2] }] } else .error "parse"
    let allocate : UInt64 → Bool := fun size => size < 2 ^ 62
    let net : ShimNetwork := { onnx := [1], inputs := [⟨text "x", [2], 0⟩] }
    ShimNetwork.step introspect allocate {} (.parse [1]) = (.returned true, net) ∧
      net.step introspect allocate (.parse [2]) = (.returned false, { net with onnx := [2] }) ∧
      ¬ ShimNetwork.Captured introspect { net with onnx := [2] } ∧
      (net.step introspect allocate (.parseFromFile (some ⟨-1, []⟩))).1 = .terminated := by
  refine ⟨by decide +kernel, by decide +kernel, ?_, by decide +kernel⟩
  rintro ⟨info, hinfo, -⟩
  exact absurd hinfo (by simp)

end Histories

end TrtShim.Shim
