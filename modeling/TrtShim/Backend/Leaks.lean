import TrtShim.Backend.Build
import TrtShim.Backend.Format
import TrtShim.Runs.History

/-! # The temporary files of builds and loads

A call that creates a temporary file removes it again unless something throws in
between. Every such exception leaves one file behind for good.
-/

namespace TrtShim.Backend

open Std

/-- A call of `build` or of `load`, with what MIGraphX and the system do during it. -/
inductive FileCall where
  | build (M : Migraphx) (c : Compile M) (host : Host) (onnxNames : List Bytes)
    (dyn : Option DynamicAxis)
  | load (M : Migraphx) (host : Host) (b : Buffer)

/-- The temporary files after a call. -/
def FileCall.run : FileCall → TempFiles → TempFiles
  | .build M c host onnxNames dyn, files => (Backend.build M c host onnxNames dyn files).2
  | .load M host b, files => (Backend.load M host b files).files

/-- The program can be saved, and its bytes can be read back. -/
def Saves (M : Migraphx) (host : Host) (prog : M.Program) : Prop :=
  ∃ content, M.save prog = .ok content ∧ host.allocate (host.tellg content).toUInt64 = .ok ()

/-- The condition on a call: if a temporary file is created for a program that compiled, or for the
program of a packed blob, then MIGraphX saves, or loads, that program without an exception. -/
def FileCall.Removes : FileCall → TempFiles → Prop
  | .build M c host onnxNames dyn, files => ∀ prog listed ios, c.compiled dyn = .ok prog →
      c.listed dyn = .ok listed → buildIos dyn (M.getParameterShapes listed) onnxNames = some ios →
      (host.mkstemp files).isSome → Saves M host prog
  | .load M host b, files => ∀ ios mxr rest, (∀ io ∈ ios, io.Encodable) → ios.length < 2 ^ 32 →
      b.bytes = packBlob ios mxr ++ rest →
      (host.mkstemp files).isSome → ∃ prog, M.load (host.write mxr) = .ok prog

/-- A new file has been left. -/
def Leaves (files after : TempFiles) : Prop := ∃ path, path ∉ files ∧ after = path :: files

section Helpers

variable {M : Migraphx} (host : Host) (files : TempFiles)

theorem programToBytes_files (prog : M.Program) :
    ((host.mkstemp files).isSome → Saves M host prog) ∧
        (programToBytes M host prog files).2 = files ∨
      ¬ ((host.mkstemp files).isSome → Saves M host prog) ∧
        Leaves files (programToBytes M host prog files).2 := by
  unfold programToBytes
  rcases hpath : host.mkstemp files with _ | path
  · exact .inl ⟨nofun, rfl⟩
  · have hfresh := host.fresh files path hpath
    rcases hsave : M.save prog with what | content
    · refine .inr ⟨fun h => ?_, path, hfresh, rfl⟩
      obtain ⟨content, hsave', -⟩ := h rfl
      exact absurd (hsave.symm.trans hsave') (by simp)
    · rcases halloc : host.allocate (host.tellg content).toUInt64 with what | _
      · refine .inr ⟨fun h => ?_, path, hfresh, ?_⟩
        · obtain ⟨content', hsave', halloc'⟩ := h rfl
          obtain rfl := Except.ok.inj (hsave.symm.trans hsave')
          exact absurd (halloc.symm.trans halloc') (by simp)
        · simp [halloc]
      · refine .inl ⟨fun _ => ⟨content, hsave, halloc⟩, ?_⟩
        simp [halloc]

theorem programFromBytes_files (mxr : Bytes) :
    ((host.mkstemp files).isSome → ∃ prog, M.load (host.write mxr) = .ok prog) ∧
        (programFromBytes M host mxr files).2 = files ∨
      ¬ ((host.mkstemp files).isSome → ∃ prog, M.load (host.write mxr) = .ok prog) ∧
        Leaves files (programFromBytes M host mxr files).2 := by
  unfold programFromBytes
  rcases hpath : host.mkstemp files with _ | path
  · exact .inl ⟨nofun, rfl⟩
  · rcases hload : M.load (host.write mxr) with what | prog
    · refine .inr ⟨fun h => ?_, path, host.fresh files path hpath, rfl⟩
      obtain ⟨prog, hload'⟩ := h rfl
      exact absurd hload' (by simp)
    · exact .inl ⟨fun _ => ⟨prog, rfl⟩, List.erase_cons_head path files⟩

end Helpers

namespace FileCall

section Build

variable {M : Migraphx} {c : Compile M} (host : Host) {onnxNames : List Bytes}
  {dyn : Option DynamicAxis} {prog listed : M.Program} {ios : List IOTensor}

/-- A build whose IO list has been filled goes on to save the program. -/
theorem run_build (hcompiled : c.compiled dyn = .ok prog) (hlisted : c.listed dyn = .ok listed)
    (hios : buildIos dyn (M.getParameterShapes listed) onnxNames = some ios)
    (files : TempFiles) :
    (build M c host onnxNames dyn).run files = (programToBytes M host prog files).2 := by
  simp only [run, Backend.build, hcompiled, hlisted, hios]
  rcases programToBytes M host prog files with ⟨_ | _, _⟩
  · rfl
  · rfl

theorem removes_build_iff (hcompiled : c.compiled dyn = .ok prog)
    (hlisted : c.listed dyn = .ok listed)
    (hios : buildIos dyn (M.getParameterShapes listed) onnxNames = some ios)
    (files : TempFiles) :
    (build M c host onnxNames dyn).Removes files ↔
      ((host.mkstemp files).isSome → Saves M host prog) := by
  constructor
  · exact fun h => h prog listed ios hcompiled hlisted hios
  · intro h prog' _ _ hcompiled' _ _
    obtain rfl := Except.ok.inj (hcompiled.symm.trans hcompiled')
    exact h

end Build

section Load

variable {M : Migraphx} (host : Host) {b : Buffer} {ios : List IOTensor} {mxr : Bytes}

/-- A load that accepts its blob goes on to load the program. -/
theorem run_load (hacc : (decode b).1 = .accepted ios mxr) (files : TempFiles) :
    (load M host b).run files = (programFromBytes M host mxr files).2 := by
  rw [run, load_accepted host b files hacc]
  rcases programFromBytes M host mxr files with ⟨_ | _, _⟩
  · rfl
  · rfl

theorem removes_load_iff (hacc : (decode b).1 = .accepted ios mxr) (files : TempFiles) :
    (load M host b).Removes files ↔
      ((host.mkstemp files).isSome → ∃ prog, M.load (host.write mxr) = .ok prog) := by
  constructor
  · intro h
    obtain ⟨henc, hlen, rest, hb⟩ := decode_accepted_iff.mp hacc
    exact h ios mxr rest henc hlen hb
  · intro h ios' mxr' rest henc hlen hb
    obtain ⟨-, rfl⟩ := Decoded.accepted.inj
      (hacc.symm.trans (decode_packBlob_append henc hlen hb))
    exact h

end Load

/-- A call keeps the files if it meets its condition, and leaves a new one if it does not. -/
theorem run_cases (call : FileCall) (files : TempFiles) :
    call.Removes files ∧ call.run files = files ∨
      ¬ call.Removes files ∧ Leaves files (call.run files) := by
  cases call with
  | build M c host onnxNames dyn =>
    rcases hcompiled : c.compiled dyn with what | prog
    · refine .inl ⟨fun prog _ _ h => absurd (hcompiled.symm.trans h) (by simp), ?_⟩
      simp [run, Backend.build, hcompiled]
    rcases hlisted : c.listed dyn with what | listed
    · refine .inl ⟨fun _ listed _ _ h => absurd (hlisted.symm.trans h) (by simp), ?_⟩
      simp [run, Backend.build, hcompiled, hlisted]
    rcases hios : buildIos dyn (M.getParameterShapes listed) onnxNames with _ | ios
    · refine .inl ⟨fun _ listed' ios _ h h' => ?_, ?_⟩
      · obtain rfl := Except.ok.inj (hlisted.symm.trans h)
        exact absurd (hios.symm.trans h') (by simp)
      · simp [run, Backend.build, hcompiled, hlisted, hios]
    rw [run_build host hcompiled hlisted hios, removes_build_iff host hcompiled hlisted hios]
    exact programToBytes_files host files prog
  | load M host b =>
    by_cases hacc : ∃ ios mxr, (decode b).1 = .accepted ios mxr
    · obtain ⟨ios, mxr, hacc⟩ := hacc
      rw [run_load host hacc, removes_load_iff host hacc]
      exact programFromBytes_files host files mxr
    · have hrun : (load M host b).run files = files := by
        rw [run, Backend.load]
        split
        next => rfl
        next => rfl
        next ios mxr _ h => exact absurd ⟨ios, mxr, congrArg Prod.fst h⟩ hacc
      refine .inl ⟨fun ios mxr rest henc hlen hb => ?_, hrun⟩
      exact absurd ⟨ios, mxr, decode_packBlob_append henc hlen hb⟩ hacc

theorem kept_iff (call : FileCall) (files : TempFiles) :
    (∀ path, path ∈ call.run files ↔ path ∈ files) ↔ call.Removes files := by
  rcases call.run_cases files with ⟨hremoves, hrun⟩ | ⟨hnot, path, hfresh, hrun⟩
  · rw [hrun]
    exact iff_of_true (fun _ => Iff.rfl) hremoves
  · rw [hrun]
    exact iff_of_false (fun hsame => hfresh ((hsame path).mp List.mem_cons_self)) hnot

end FileCall

/-- A history whose calls all meet the condition ends with the files it started with, and so does
every part of it. -/
theorem files_kept_run {calls : List FileCall} {files : TempFiles}
    (h : ∀ st ∈ History.steps FileCall.run calls files, st.call.Removes st.before) :
    ∀ st ∈ History.steps FileCall.run calls files, ∀ path, path ∈ st.after ↔ path ∈ files := by
  apply History.rel_after (R := fun before after => ∀ path, path ∈ after ↔ path ∈ before)
  · exact fun _ _ => Iff.rfl
  · exact fun _ _ _ hst htu path => (htu path).trans (hst path)
  · intro st hst
    rw [History.after_eq_run hst]
    exact (st.call.kept_iff st.before).mpr (h st hst)

open Classical in
/-- The number of files left by a history is the number of its calls that miss the condition. -/
theorem length_final_files (calls : List FileCall) (files : TempFiles) :
    (History.final FileCall.run calls files).length = files.length +
      (History.steps FileCall.run calls files).countP fun st => ¬ st.call.Removes st.before := by
  apply History.measure_final List.length
  intro st hst
  rw [History.after_eq_run hst]
  rcases st.call.run_cases st.before with ⟨hremoves, hrun⟩ | ⟨hnot, path, -, hrun⟩
  · rw [hrun, if_neg (by simpa using hremoves), Nat.add_zero]
  · rw [hrun, if_pos (by simpa using hnot), List.length_cons]

open Classical in
/-- In every history of builds and loads, each call leaves the files as they were before it exactly
if no call throws between creating its file and removing it. Where none does, the files are those
at the start after every call, and each call that does leaves one more. -/
theorem files_kept_iff (calls : List FileCall) (files : TempFiles) :
    ((∀ st ∈ History.steps FileCall.run calls files, ∀ path, path ∈ st.after ↔ path ∈ st.before) ↔
      ∀ st ∈ History.steps FileCall.run calls files, st.call.Removes st.before) ∧
    ((∀ st ∈ History.steps FileCall.run calls files, st.call.Removes st.before) →
      ∀ st ∈ History.steps FileCall.run calls files, ∀ path, path ∈ st.after ↔ path ∈ files) ∧
    (History.final FileCall.run calls files).length = files.length +
      (History.steps FileCall.run calls files).countP fun st => ¬ st.call.Removes st.before := by
  refine ⟨?_, files_kept_run, length_final_files calls files⟩
  apply forall₂_congr
  intro st hst
  rw [History.after_eq_run hst]
  exact st.call.kept_iff st.before

/-- Each load of a blob with corrupt program bytes leaves a file behind. -/
theorem load_corrupt_leaves :
    let M : Migraphx := { Migraphx.single [] [] with load := fun _ => .error "corrupt" }
    let b : Buffer := ⟨packBlob [] [77], by decide +kernel⟩
    let call := FileCall.load M .plain b
    (load M .plain b []).engine = none ∧ (call.run []).length = 1 ∧
      (call.run (call.run [])).length = 2 := by
  intro M b call
  have hacc : (decode b).1 = .accepted [] [77] := by decide +kernel
  have hrun (files : TempFiles) : (call.run files).length = files.length + 1 := by
    change (load M .plain b files).files.length = _
    rw [load_accepted .plain b files hacc]
    rfl
  refine ⟨?_, hrun [], ?_⟩
  · rw [load_accepted .plain b [] hacc]
    rfl
  · rw [hrun, hrun]
    rfl

end TrtShim.Backend
