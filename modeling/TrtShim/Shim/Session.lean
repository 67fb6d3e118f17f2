import TrtShim.Runs.Objects
import TrtShim.Shim.Config
import TrtShim.Shim.Network
import TrtShim.Shim.Profile

/-! # Sessions

A client creates networks, configurations and profiles, and calls them in any
order. A build reads the model of one network, the flags and the calibrator of one
configuration, and the profile that was added to it first. It sees the calls of
these three objects only, and those of the profile also when they come after it
was added.
-/

namespace TrtShim.Shim

open Backend Objects

/-- The objects of a client. One that was not created yet is as it is when it is created. -/
structure Session where
  networks : Ptr → ShimNetwork := fun _ => {}
  configs : Ptr → ShimConfig := fun _ => {}
  profiles : Ptr → ShimOptimizationProfile := fun _ => {}

/-- A call of the client. A network is called through a parser that was created for it. -/
inductive ApiCall where
  | network (p : Ptr) (e : Event Call)
  | config (p : Ptr) (e : Event ConfigCall)
  | profile (p : Ptr) (e : Event SetDimensions)

/-- What `buildSerializedNetwork` passes to `build`. -/
structure Request where
  onnx : Bytes
  opts : BuildOptions
  calibrator : Option Ptr
  dyn : Option DynamicAxis

/-- `buildSerializedNetwork` up to the call of `build`. -/
def request (profiles : Ptr → ShimOptimizationProfile) (net : ShimNetwork) (cfg : ShimConfig) :
    Request where
  onnx := net.onnx
  opts := cfg.options
  calibrator := if cfg.options.int8 ∧ cfg.calibrator ≠ 0 then some cfg.calibrator else none
  dyn := if cfg.profile ≠ 0 then (profiles cfg.profile).dynamicAxis else none

namespace Session

variable (introspect : Bytes → Except String IOInfo) (allocate : UInt64 → Bool) (s : Session)

/-- A network after a call of a parser. -/
def parsed (net : ShimNetwork) (call : Call) : ShimNetwork :=
  (net.step introspect allocate call).2

/-- The profile after a call. -/
def selected (p : ShimOptimizationProfile) (call : SetDimensions) : ShimOptimizationProfile :=
  p.setDimensions call.name call.sel call.dims

/-- The call ends the program. -/
def ends : ApiCall → Bool
  | .network p (.call c) => ((s.networks p).step introspect allocate c).1 = .terminated
  | _ => false

/-- The objects after a call. -/
def perform : ApiCall → Session
  | .network p e =>
    { s with networks := Objects.step {} (parsed introspect allocate) s.networks (p, e) }
  | .config p e => { s with configs := Objects.step {} ShimConfig.call s.configs (p, e) }
  | .profile p e => { s with profiles := Objects.step {} selected s.profiles (p, e) }

/-- The session after a call. No value stands for a program that has ended. -/
def step (c : ApiCall) : Option Session :=
  if s.ends introspect allocate c then none else some (s.perform introspect allocate c)

/-- The session after a history of calls. -/
def run (calls : List ApiCall) : Option Session := calls.foldlM (step introspect allocate) s

/-- What a build of a network with a configuration requests. -/
def request (network config : Ptr) : Request :=
  Shim.request s.profiles (s.networks network) (s.configs config)

end Session

/-! ## What a history stands for -/

namespace ApiCall

/-- The event of a network. -/
def networkEvent : ApiCall → Option (Ptr × Event Call)
  | network p e => some (p, e)
  | _ => none

/-- The event of a configuration. -/
def configEvent : ApiCall → Option (Ptr × Event ConfigCall)
  | config p e => some (p, e)
  | _ => none

/-- The event of a profile. -/
def profileEvent : ApiCall → Option (Ptr × Event SetDimensions)
  | profile p e => some (p, e)
  | _ => none

end ApiCall

/-- The calls of a network in a history. -/
def networkCalls (calls : List ApiCall) (p : Ptr) : List Call :=
  callsOn p (calls.filterMap ApiCall.networkEvent)

/-- The calls of a configuration in a history. -/
def configCalls (calls : List ApiCall) (p : Ptr) : List ConfigCall :=
  callsOn p (calls.filterMap ApiCall.configEvent)

/-- The calls of a profile in a history. -/
def profileCalls (calls : List ApiCall) (p : Ptr) : List SetDimensions :=
  callsOn p (calls.filterMap ApiCall.profileEvent)

/-- The bytes that a call captures. -/
def captured (allocate : UInt64 → Bool) (call : Call) : Option Bytes :=
  let ingested (data : Bytes) :=
    if allocate (UInt64.ofNat data.length) then some data else none
  match call with
  | .parse data => ingested data
  | .parseWithWeightDescriptors data => ingested data
  | .parseFromFile none => none
  | .parseFromFile (some f) =>
    let n := f.ftell.toUInt64
    let bytes := f.content.take n.toNat
    if allocate n ∧ bytes.length = n.toNat then ingested bytes else none

/-- The value of a flag after some calls on a new configuration. -/
def flagAfter (calls : List ConfigCall) (f : BuilderFlag) : Bool :=
  (Lists.lastValue (flagWrites calls) f).getD false

namespace Session

variable {introspect : Bytes → Except String IOInfo} {allocate : UInt64 → Bool} {s t : Session}
  {calls : List ApiCall}

theorem eq_perform {c : ApiCall} (h : s.step introspect allocate c = some t) :
    t = s.perform introspect allocate c := by
  rw [step, Option.ite_none_left_eq_some] at h
  exact (Option.some.inj h.2).symm

theorem follows_networks : Follows (step introspect allocate) networks ApiCall.networkEvent
    (Objects.step {} (parsed introspect allocate)) := by
  intro s c t h
  rw [eq_perform h]
  cases c <;> rfl

theorem follows_configs : Follows (step introspect allocate) configs ApiCall.configEvent
    (Objects.step {} ShimConfig.call) := by
  intro s c t h
  rw [eq_perform h]
  cases c <;> rfl

theorem follows_profiles : Follows (step introspect allocate) profiles ApiCall.profileEvent
    (Objects.step {} selected) := by
  intro s c t h
  rw [eq_perform h]
  cases c <;> rfl

theorem networks_run (h : run introspect allocate {} calls = some t) (p : Ptr) :
    t.networks p = (networkCalls calls p).foldl (parsed introspect allocate) {} := by
  rw [follows_networks.foldlM h]
  exact foldl_step

theorem configs_run (h : run introspect allocate {} calls = some t) (p : Ptr) :
    t.configs p = ShimConfig.after {} (configCalls calls p) := by
  rw [follows_configs.foldlM h]
  exact foldl_step

theorem profiles_run (h : run introspect allocate {} calls = some t) (p : Ptr) :
    t.profiles p = ShimOptimizationProfile.after {} (profileCalls calls p) := by
  rw [follows_profiles.foldlM h]
  exact foldl_step

theorem onnx_ingest (net : ShimNetwork) (data : Bytes) :
    (net.ingest introspect allocate data).2.onnx =
      (if allocate (UInt64.ofNat data.length) then some data else none).getD net.onnx := by
  unfold ShimNetwork.ingest
  split
  · split <;> rfl
  · rfl

/-- A call leaves the bytes that it captures. -/
theorem onnx_parsed (net : ShimNetwork) (call : Call) :
    (parsed introspect allocate net call).onnx = (captured allocate call).getD net.onnx := by
  cases call with
  | parse data => exact onnx_ingest net data
  | parseWithWeightDescriptors data => exact onnx_ingest net data
  | parseFromFile file =>
    cases file with
    | none => rfl
    | some f =>
      simp only [parsed, ShimNetwork.step, ShimNetwork.parseFromFile, captured]
      split
      next ha =>
        split
        next hl =>
          rw [if_pos ⟨ha, hl⟩]
          exact onnx_ingest net _
        next hl => rw [if_neg fun h => hl h.2]; rfl
      next ha => rw [if_neg fun h => ha h.1]; rfl

theorem onnx_foldl_parsed (net : ShimNetwork) (parses : List Call) :
    (parses.foldl (parsed introspect allocate) net).onnx =
      ((parses.filterMap (captured allocate)).getLast?).getD net.onnx := by
  induction parses generalizing net with
  | nil => rfl
  | cons call parses ih =>
    rw [List.foldl_cons, ih, onnx_parsed]
    cases hc : captured allocate call with
    | none => rw [List.filterMap_cons_none hc]; rfl
    | some data => rw [List.filterMap_cons_some hc, List.getLast?_cons]; rfl

/-- A flag that was never written is not set. -/
theorem options_run (h : run introspect allocate {} calls = some t) (config : Ptr) :
    (t.configs config).options =
      ⟨flagAfter (configCalls calls config) .kFP16, flagAfter (configCalls calls config) .kINT8,
        flagAfter (configCalls calls config) .kBF16⟩ := by
  have hunset (f : BuilderFlag) : ShimConfig.getFlag {} f = false := by cases f <;> rfl
  have hflag (f : BuilderFlag) :
      (t.configs config).getFlag f = flagAfter (configCalls calls config) f := by
    rw [configs_run h, ShimConfig.getFlag_after, hunset, flagAfter]
  rw [ShimConfig.options, hflag, hflag, hflag]

end Session

/-- The calibrator of a configuration after some calls, unless it is null. -/
def calibratorAfter (calls : List ConfigCall) : Option Ptr :=
  (calibratorsSet calls).getLast?.filter fun c => c ≠ 0

/-- The profile added first, unless it is null. -/
def profileAfter (calls : List ConfigCall) : Option Ptr :=
  (profilesAdded calls).head?.filter fun p => p ≠ 0

theorem filter_ne_null (o : Option Ptr) :
    (o.filter fun p => p ≠ 0) = if o.getD 0 ≠ 0 then some (o.getD 0) else none := by
  cases o with
  | none => rfl
  | some p => rw [Option.filter_some]; simp only [decide_eq_true_eq, Option.getD_some]

end TrtShim.Shim
