import TrtShim.Containers.Dict
import TrtShim.Tools.Scoreboard

/-! # The report of the scoreboard

The scoreboard runs the test cases one after the other and counts their verdicts by
status, by operator and by reason. However the cases end, each is counted once, and the
three lists of operators say of each operator what its cases say.
-/

namespace TrtShim.Tools

open Str

variable {α : Type}

/-- The command line of the scoreboard, and what it finds on the machine. -/
structure Suite (α : Type) where
  np : Numpy α
  runner : Str
  run : Invocation → Except Str (Option Completed)
  limit : ℤ
  filter : Str
  /-- `NODE`. -/
  node : Str
  /-- `os.listdir(NODE)`. -/
  listdir : List Str
  dir : Str → CaseDir α
  /-- `tempfile.TemporaryDirectory`. -/
  tmp : Str → Str

/-- A test case that has been run: its operator and its verdict. -/
structure Outcome where
  op : Str
  status : Status
  why : Str
  deriving DecidableEq

/-- The counters of `main`. -/
structure Tallies where
  tally : List (Status × ℕ)
  byOp : List (Str × List (Status × ℕ))
  reasons : List (Str × ℕ)
  deriving DecidableEq

namespace Suite

variable (s : Suite α)

/-- `dirs`. -/
def dirs : List Str :=
  let dirs := sorted (s.listdir.filter fun d => (str "test_").isPrefixOf d ∧ s.filter <:+: d)
  if s.limit = 0 then dirs
  else dirs.take (if 0 ≤ s.limit then s.limit else dirs.length + s.limit).toNat

/-- The body of the loop of `main`, up to its counters. -/
def outcome (name : Str) : Outcome :=
  let d := s.dir (joinPath s.node name)
  let ran : Except Str (Option (Case α) × Verdict) := do
    let c ← loadCase d
    let v ← runCase s.np s.runner s.run d (s.tmp name)
    return (c, v)
  match ran with
  | .ok (c, status, why) => ⟨c.elim name Case.op, status, why⟩
  | .error e => ⟨name, .fail, str "harness:" ++ e.take 30⟩

end Suite

namespace Tallies

/-- What the body of the loop of `main` does to its counters. -/
def add (t : Tallies) (o : Outcome) : Tallies where
  tally := Dict.modify 0 (· + 1) o.status t.tally
  byOp := Dict.modify [] (Dict.modify 0 (· + 1) o.status) o.op t.byOp
  reasons := if o.why = [] then t.reasons else Dict.modify 0 (· + 1) o.why t.reasons

variable (t : Tallies)

/-- The operators whose counters pass a test, in order. -/
def opsWith (p : (Status → ℕ) → Bool) : List Str :=
  sorted ((t.byOp.filter fun q => p (Dict.get 0 q.2)).map Prod.fst)

/-- `full`. -/
def full : List Str := t.opsWith fun c => c .pass ≠ 0 ∧ c .fail = 0

/-- `partial`. -/
def partly : List Str := t.opsWith fun c => c .pass ≠ 0 ∧ c .fail ≠ 0

/-- `none`. -/
def never : List Str := t.opsWith fun c => c .pass = 0 ∧ c .fail ≠ 0

/-- `total`. -/
def total : ℕ := (t.tally.map Prod.snd).sum

/-- The text that `main` writes and prints. -/
def report : Str :=
  let section_ (title : Str) (ops : List Str) : List Str :=
    [str "## Operators " ++ title ++ str " (" ++ decimal ops.length ++ str ")",
      (str ", ").intercalate ops, []]
  let lines := [str "# ONNX backend-test scoreboard (shim on gfx90a)", [],
      str "Ran " ++ decimal t.total ++ str " node test cases through trtshim_infer.", [],
      str "- pass: " ++ decimal (Dict.get 0 t.tally .pass),
      str "- fail: " ++ decimal (Dict.get 0 t.tally .fail),
      str "- skip: " ++ decimal (Dict.get 0 t.tally .skip), []] ++
    section_ (str "fully passing") t.full ++ section_ (str "partially passing") t.partly ++
    section_ (str "with no pass") t.never ++ [str "## Top failure reasons"] ++
    (Dict.mostCommon 15 t.reasons).map fun q => str "- " ++ q.1 ++ str ": " ++ decimal q.2
  ['\n'].intercalate lines ++ ['\n']

end Tallies

/-- The counters after some outcomes. -/
def tallied (os : List Outcome) : Tallies := os.foldl Tallies.add ⟨[], [], []⟩

namespace Suite

variable (s : Suite α)

def outcomes : List Outcome := s.dirs.map s.outcome

/-- The counters after the loop of `main`. -/
def tallies : Tallies := tallied s.outcomes

end Suite

/-! ## Reasons -/

section Reasons

variable {np : Numpy α} {tmp runner : Str} {exp : α} {status : Status} {why : Str}

/-- A verdict gives a reason exactly if it is not a pass. -/
def Reasoned (v : Verdict) : Prop := v.2 = [] ↔ v.1 = .pass

theorem reasoned_of_ne (hstatus : status ≠ .pass) (hwhy : why ≠ []) : Reasoned (status, why) :=
  ⟨fun h => absurd h hwhy, fun h => absurd h hstatus⟩

theorem reasoned_judge {r : Completed} {v : Verdict} (h : judge np tmp exp r = .ok v) :
    Reasoned v := by
  simp only [judge, bind, Except.bind] at h
  split at h
  · cases h
  · split at h
    · cases h
      exact reasoned_of_ne (by decide) (by simp [str])
    · split at h
      · cases h
      · split at h
        · cases h
          exact reasoned_of_ne (by decide) (by simp [str])
        · cases h
          unfold Reasoned
          split_ifs <;> simp [str]

theorem reasoned_finish {r : Except Str (Option Completed)} {v : Verdict}
    (h : finish np tmp exp r = .ok v) : Reasoned v := by
  rcases r with what | _ | r
  · cases h
  · cases h
    exact reasoned_of_ne (by decide) (by simp [str])
  · simp only [finish] at h
    split at h
    · cases h
      exact reasoned_of_ne (by decide) (by simp [runFailure, str])
    · exact reasoned_judge h

theorem reasoned_runCase {run : Invocation → Except Str (Option Completed)} {d : CaseDir α}
    {v : Verdict} (h : runCase np runner run d tmp = .ok v) : Reasoned v := by
  simp only [runCase, bind, Except.bind] at h
  split at h
  · cases h
  · split at h
    · cases h
      exact reasoned_of_ne (by decide) (by simp [str])
    · split at h
      · cases h
        exact reasoned_of_ne (by decide) (by simp [str])
      · split_ifs at h
        · cases h
          exact reasoned_of_ne (by decide) (by simp [str])
        · cases h
          exact reasoned_of_ne (by decide) (by simp [str])
        · exact reasoned_finish h

/-- Exceptions included, a case has a reason exactly if it does not pass. -/
theorem reasoned_outcome (s : Suite α) (name : Str) :
    Reasoned ((s.outcome name).status, (s.outcome name).why) := by
  simp only [Suite.outcome, bind, Except.bind]
  have hraised (e : Str) : Reasoned (.fail, str "harness:" ++ e.take 30) :=
    reasoned_of_ne (by decide) (by simp [str])
  rcases loadCase (s.dir (joinPath s.node name)) with e | c
  · exact hraised e
  · rcases hrun : runCase s.np s.runner s.run (s.dir (joinPath s.node name)) (s.tmp name) with e | v
    · exact hraised e
    · exact reasoned_runCase hrun

end Reasons

/-! ## Accounts -/

namespace Tallies

variable {t : Tallies} {p : (Status → ℕ) → Bool} {op : Str}

theorem mem_opsWith (h : (t.byOp.map Prod.fst).Nodup) (hp : p (fun _ => 0) = false) :
    op ∈ t.opsWith p ↔ p (Dict.get 0 (Dict.get [] t.byOp op)) = true := by
  rw [opsWith, sorted, List.mem_insertionSort, List.mem_map]
  constructor
  · rintro ⟨⟨op, c⟩, hmem, rfl⟩
    obtain ⟨hmem, hc⟩ := List.mem_filter.mp hmem
    rwa [Dict.get_of_mem h hmem]
  · intro hc
    by_cases hmem : op ∈ t.byOp.map Prod.fst
    · obtain ⟨⟨op, c⟩, hentry, rfl⟩ := List.mem_map.mp hmem
      rw [Dict.get_of_mem h hentry] at hc
      exact ⟨(op, c), List.mem_filter.mpr ⟨hentry, hc⟩, rfl⟩
    · rw [Dict.get_of_not_mem hmem] at hc
      exact absurd (hp.symm.trans hc) Bool.false_ne_true

theorem pairwise_opsWith (h : (t.byOp.map Prod.fst).Nodup) :
    (t.opsWith p).Pairwise (· < ·) := by
  have hnodup : (t.opsWith p).Nodup :=
    (List.perm_insertionSort _ _).nodup_iff.mpr (h.sublist (List.filter_sublist.map Prod.fst))
  have hle : (t.opsWith p).Pairwise (· ≤ ·) := List.pairwise_insertionSort _ _
  exact (hle.and hnodup).imp fun hab => lt_of_le_of_ne hab.1 hab.2

end Tallies

section Accounts

variable {os : List Outcome}

/-- The counters, each as the counter of one column of the outcomes. -/
theorem tallied_eq (os : List Outcome) : tallied os =
    { tally := Dict.tally (os.map Outcome.status)
      byOp := Dict.collect [] Outcome.op (fun o => Dict.modify 0 (· + 1) o.status) os
      reasons := Dict.tally ((os.map Outcome.why).filter (· ≠ [])) } := by
  induction os using List.reverseRecOn with
  | nil => rfl
  | append_singleton os o ih =>
    have hadd : tallied (os ++ [o]) = (tallied os).add o := by
      rw [tallied, List.foldl_append]
      rfl
    rw [hadd, ih, Tallies.add, List.map_append,
      List.map_singleton, Dict.tally_concat, Dict.collect_concat, List.map_append,
      List.map_singleton, List.filter_append]
    congr 1
    split_ifs with hwhy
    · simp [hwhy]
    · rw [List.filter_singleton, decide_eq_true hwhy, cond_true, Dict.tally_concat]

/-- The counters agree with the outcomes: each outcome is counted once by its status, by its
operator, and by its reason if there is one; the lists of operators, in increasing order, say of
each operator how its cases ended, and the reasons listed are the most frequent ones. -/
structure Accounts (os : List Outcome) (t : Tallies) : Prop where
  total : t.total = os.length
  statuses : Dict.get 0 t.tally .pass + Dict.get 0 t.tally .fail + Dict.get 0 t.tally .skip =
    os.length
  status : ∀ st, Dict.get 0 t.tally st = os.countP fun o => o.status = st
  reasons : (t.reasons.map Prod.snd).sum = Dict.get 0 t.tally .fail + Dict.get 0 t.tally .skip
  reason : ∀ why ≠ [], Dict.get 0 t.reasons why = os.countP fun o => o.why = why
  common : ∀ a ∈ Dict.mostCommon 15 t.reasons, ∀ b ∈ t.reasons, b ∉ Dict.mostCommon 15 t.reasons →
    b.2 ≤ a.2
  full : ∀ op, op ∈ t.full ↔ (∃ o ∈ os, o.op = op ∧ o.status = .pass) ∧
    ¬ ∃ o ∈ os, o.op = op ∧ o.status = .fail
  partly : ∀ op, op ∈ t.partly ↔ (∃ o ∈ os, o.op = op ∧ o.status = .pass) ∧
    ∃ o ∈ os, o.op = op ∧ o.status = .fail
  never : ∀ op, op ∈ t.never ↔ (¬ ∃ o ∈ os, o.op = op ∧ o.status = .pass) ∧
    ∃ o ∈ os, o.op = op ∧ o.status = .fail
  increasing : t.full.Pairwise (· < ·) ∧ t.partly.Pairwise (· < ·) ∧ t.never.Pairwise (· < ·)

theorem count_statuses (os : List Outcome) :
    os.countP (fun o => o.status = .pass) + os.countP (fun o => o.status = .fail) +
      os.countP (fun o => o.status = .skip) = os.length := by
  induction os with
  | nil => rfl
  | cons o os ih =>
    rw [List.countP_cons, List.countP_cons, List.countP_cons, List.length_cons, ← ih]
    cases o.status <;> simp <;> omega

theorem length_reasons (h : ∀ o ∈ os, Reasoned (o.status, o.why)) :
    ((os.map Outcome.why).filter (· ≠ [])).length =
      os.countP (fun o => o.status = .fail) + os.countP (fun o => o.status = .skip) := by
  induction os with
  | nil => rfl
  | cons o os ih =>
    obtain ⟨ho, hos⟩ := List.forall_mem_cons.mp h
    have hwhy : o.why = [] ↔ o.status = .pass := ho
    have hrest := ih hos
    rw [List.map_cons, List.filter_cons, List.countP_cons, List.countP_cons]
    rcases hst : o.status with _ | _ | _
    · simpa [hwhy.mpr hst] using hrest
    · have hne : o.why ≠ [] := fun he => absurd (hwhy.mp he) (by simp [hst])
      rw [if_pos (decide_eq_true hne), List.length_cons, hrest]
      simp
      omega
    · have hne : o.why ≠ [] := fun he => absurd (hwhy.mp he) (by simp [hst])
      rw [if_pos (decide_eq_true hne), List.length_cons, hrest]
      simp
      omega

theorem nodup_byOp : ((tallied os).byOp.map Prod.fst).Nodup := by
  rw [tallied_eq]
  exact Dict.nodup_keys_collect

/-- The counter of an operator counts its outcomes. -/
theorem get_byOp (op : Str) (st : Status) : Dict.get 0 (Dict.get [] (tallied os).byOp op) st =
    os.countP fun o => o.op = op ∧ o.status = st := by
  have hgroup : Dict.get [] (tallied os).byOp op =
      Dict.tally ((os.filter fun o => o.op = op).map Outcome.status) := by
    rw [tallied_eq, Dict.get_collect, Dict.tally, Dict.collect, List.foldl_map]
    rfl
  rw [hgroup, Dict.get_tally, List.countP_map, List.countP_filter]
  refine List.countP_congr fun o _ => ?_
  simp [and_comm]

theorem get_byOp_ne_zero (op : Str) (st : Status) :
    Dict.get 0 (Dict.get [] (tallied os).byOp op) st ≠ 0 ↔
      ∃ o ∈ os, o.op = op ∧ o.status = st := by
  rw [get_byOp, ← Nat.pos_iff_ne_zero, List.countP_pos_iff]
  simp

theorem get_byOp_eq_zero (op : Str) (st : Status) :
    Dict.get 0 (Dict.get [] (tallied os).byOp op) st = 0 ↔
      ¬ ∃ o ∈ os, o.op = op ∧ o.status = st := by
  rw [← get_byOp_ne_zero, not_ne_iff]

theorem accounts_tallied (h : ∀ o ∈ os, Reasoned (o.status, o.why)) :
    Accounts os (tallied os) := by
  have htally : (tallied os).tally = Dict.tally (os.map Outcome.status) := by rw [tallied_eq]
  have hreasons : (tallied os).reasons = Dict.tally ((os.map Outcome.why).filter (· ≠ [])) := by
    rw [tallied_eq]
  have hstatus (st : Status) : Dict.get 0 (tallied os).tally st =
      os.countP fun o => o.status = st := by
    rw [htally, Dict.get_tally, List.countP_map]
    rfl
  refine ⟨?total, ?statuses, ?status, ?reasons, ?reason, ?common, ?full, ?partly, ?never,
    ?increasing⟩
  case total =>
    rw [Tallies.total, htally, Dict.sum_tally, List.length_map]
  case statuses =>
    rw [hstatus, hstatus, hstatus, count_statuses]
  case status => exact hstatus
  case reasons =>
    rw [hreasons, Dict.sum_tally, length_reasons h, hstatus, hstatus]
  case reason =>
    intro why hwhy
    rw [hreasons, Dict.get_tally, List.countP_filter, List.countP_map]
    refine List.countP_congr fun o _ => ?_
    simp only [Function.comp_apply, Bool.and_eq_true, decide_eq_true_eq]
    exact ⟨And.left, fun he => ⟨he, he ▸ hwhy⟩⟩
  case common => exact fun a ha b hb => Dict.le_of_mem_mostCommon ha hb
  case full =>
    intro op
    rw [Tallies.full, Tallies.mem_opsWith nodup_byOp (by decide), decide_eq_true_iff,
      get_byOp_ne_zero, get_byOp_eq_zero]
  case partly =>
    intro op
    rw [Tallies.partly, Tallies.mem_opsWith nodup_byOp (by decide), decide_eq_true_iff,
      get_byOp_ne_zero, get_byOp_ne_zero]
  case never =>
    intro op
    rw [Tallies.never, Tallies.mem_opsWith nodup_byOp (by decide), decide_eq_true_iff,
      get_byOp_eq_zero, get_byOp_ne_zero]
  case increasing =>
    exact ⟨Tallies.pairwise_opsWith nodup_byOp, Tallies.pairwise_opsWith nodup_byOp,
      Tallies.pairwise_opsWith nodup_byOp⟩

end Accounts

/-- Two cases, of which one has no data and the other raises an exception. -/
def twoCases : Suite Bytes where
  np := ⟨fun _ => false, id, List.length, fun _ => false, fun b _ => .ok b, fun a _ => a,
    fun a b => a = b, fun a b => a = b⟩
  runner := str "infer"
  run _ := .ok none
  limit := 0
  filter := []
  node := str "node"
  listdir := [str "test_b", str "readme", str "test_a"]
  dir path := ⟨path, if path = str "node/test_b" then some (.error (str "bad")) else none,
    some ⟨[], fun _ => .error []⟩⟩
  tmp name := name

example : twoCases.tallies = ⟨[(.skip, 1), (.fail, 1)], [(str "test_a", [(.skip, 1)]),
    (str "test_b", [(.fail, 1)])], [(str "no-data", 1), (str "harness:bad", 1)]⟩ := by
  decide +kernel

example : twoCases.tallies.never = [str "test_b"] := by decide +kernel

end TrtShim.Tools
