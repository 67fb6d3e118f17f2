import TrtShim.Onnx.Bounds

/-! # The walk over a buffer

Unless one of its pointer additions wraps, the walk over a buffer keeps every
reader in its range, reads at most one tag for each byte in every loop, and
ends.
-/

namespace TrtShim.Onnx

open PbReader

/-- The three loops of `onnx_output_names`. -/
inductive Level where
  | top
  | graph
  | value
  deriving DecidableEq

namespace Walk

/-- The readers that are in use. -/
def readers : Walk → List PbReader
  | .top r => [r]
  | .graph g _ => [g]
  | .value g r _ => [g, r]
  | .done _ => []

/-- The loop that is running, with its reader. -/
def current : Walk → Option (Level × PbReader)
  | .top r => some (.top, r)
  | .graph g _ => some (.graph, g)
  | .value _ r _ => some (.value, r)
  | .done _ => none

variable (m : Mem)

/-- The calls of the next pass. -/
def calls (w : Walk) : List Call :=
  match w.current with
  | some (_, r) => r.calls m
  | none => []

/-- A pointer addition in the next pass wraps. -/
def Wraps (w : Walk) : Prop :=
  match w.current with
  | some (_, r) => r.Wraps m
  | none => False

/-- The next pass is one of this loop and reads a tag. -/
def tagAt (level : Level) (w : Walk) : Bool :=
  match w.current with
  | some (level', r) => decide (level' = level) && (r.tag m).isSome
  | none => false

def Done : Walk → Prop
  | .done _ => True
  | _ => False

/-- What holds of the walk over `n` bytes at the address `data` when its loops have read these
numbers of tags. A tag takes up a byte of its loop's range, and the values of a graph lie one
after the other in the range of the graph. -/
def Inv (data n : ℕ) (tags : Level → ℕ) : Walk → Prop
  | .top r => r.Inside ∧ data ≤ r.p.toNat ∧ r.end_.toNat = data + n ∧
      tags .top + data ≤ r.p.toNat ∧ tags .graph = 0 ∧ tags .value = 0
  | .graph g _ => g.Inside ∧ g.end_.toNat ≤ g.start.toNat + n ∧ tags .top ≤ n ∧
      tags .graph + g.start.toNat ≤ g.p.toNat ∧ tags .value + g.start.toNat ≤ g.p.toNat
  | .value g r _ => g.Inside ∧ r.Inside ∧ g.end_.toNat ≤ g.start.toNat + n ∧ tags .top ≤ n ∧
      tags .graph + g.start.toNat ≤ g.p.toNat ∧ r.end_.toNat ≤ g.p.toNat ∧
      tags .value + g.start.toNat ≤ r.p.toNat
  | .done _ => ∀ level, tags level ≤ n

/-- The bytes left to the loops that are running, weighted so that every pass decreases the
rank. -/
def rank : Walk → ℕ
  | .top r => 3 * (r.end_.toNat - r.p.toNat) + 3
  | .graph g _ => 3 * (g.end_.toNat - g.p.toNat) + 1
  | .value g r _ => 3 * (g.end_.toNat - g.p.toNat) + (r.end_.toNat - r.p.toNat) + 2
  | .done _ => 0

variable {m} {data n : ℕ} {tags : Level → ℕ} {w : Walk}

theorem Inv.inside (h : w.Inv data n tags) : ∀ r ∈ w.readers, r.Inside := by
  cases w with
  | top r => simpa [readers] using h.1
  | graph g names => simpa [readers] using h.1
  | value g r names => simpa [readers] using ⟨h.1, h.2.1⟩
  | done names => simp [readers]

/-- The range that `bytes` returned, for a nested loop. -/
theorem inside_ofRange (s len : UInt64) (h : s.toNat + len.toNat < 2 ^ 64) :
    (ofRange s len).Inside ∧ (ofRange s len).end_.toNat = s.toNat + len.toNat := by
  have hadd := toNat_add_of_lt h
  refine ⟨⟨UInt64.le_refl _, ?_⟩, hadd⟩
  rw [UInt64.le_iff_toNat_le]
  change s.toNat ≤ (s + len).toNat
  omega

/-- The numbers of tags after the next pass. -/
def count (m : Mem) (w : Walk) (tags : Level → ℕ) (level : Level) : ℕ :=
  tags level + if w.tagAt m level then 1 else 0

theorem count_eof {level : Level} {r : PbReader} (tags : Level → ℕ)
    (hc : w.current = some (level, r)) (ht : r.tag m = none) : count m w tags = tags := by
  funext level'
  simp [count, tagAt, hc, ht]

theorem count_tag {level : Level} {r : PbReader} (tags : Level → ℕ)
    (hc : w.current = some (level, r)) (ht : (r.tag m).isSome) (level' : Level) :
    count m w tags level' = tags level' + if level = level' then 1 else 0 := by
  simp [count, tagAt, hc, ht]

theorem inv_step_top {r : PbReader} (h : (Walk.top r).Inv data n tags) (hw : ¬ r.Wraps m) :
    (step m (.top r)).Inv data n (count m (.top r) tags) ∧
      (step m (.top r)).rank < (Walk.top r).rank := by
  obtain ⟨hin, hdata, hend, htop, hgraph, hvalue⟩ := h
  have hle := UInt64.le_iff_toNat_le.mp hin.le_end
  have hlt := r.end_.toNat_lt
  rcases (next_moved 7 hin hw).2 with
    ⟨htag, hnext⟩ | ⟨htag, r', hm, hp, hnext | ⟨s, len, hnext, hs, hlen⟩⟩
  · rw [count_eof tags rfl htag]
    simp only [step, hnext, rank]
    refine ⟨fun level => ?_, by omega⟩
    cases level <;> omega
  · have he := congrArg UInt64.toNat hm.end_eq
    have hle' := hm.le_end
    have hcount := count_tag tags (rfl : (Walk.top r).current = _) htag
    simp only [step, hnext, Inv, hcount, rank, he, hgraph, hvalue, reduceCtorEq, if_true, if_false]
    exact ⟨⟨hm.inside hin, by omega, hend, by omega, trivial, trivial⟩, by omega⟩
  · have hle' := hm.le_end
    obtain ⟨hrange, hrend⟩ := inside_ofRange s len (by omega)
    have hcount := count_tag tags (rfl : (Walk.top r).current = _) htag
    simp only [step, hnext]
    split
    · refine ⟨fun level => ?_, by simp [rank]⟩
      rw [hcount]
      split <;> cases level <;> omega
    · simp only [Inv, hcount, rank, hrend, hgraph, hvalue, reduceCtorEq, if_true, if_false]
      refine ⟨⟨hrange, ?_, by omega, ?_, ?_⟩, ?_⟩
      all_goals simp only [ofRange]; omega

theorem inv_step_graph {g : PbReader} {names : List Bytes}
    (h : (Walk.graph g names).Inv data n tags) (hw : ¬ g.Wraps m) :
    (step m (.graph g names)).Inv data n (count m (.graph g names) tags) ∧
      (step m (.graph g names)).rank < (Walk.graph g names).rank := by
  obtain ⟨hin, hend, htop, hgraph, hvalue⟩ := h
  have hle := UInt64.le_iff_toNat_le.mp hin.le_end
  have hlt := g.end_.toNat_lt
  rcases (next_moved 12 hin hw).2 with
    ⟨htag, hnext⟩ | ⟨htag, g', hm, hp, hnext | ⟨s, len, hnext, hs, hlen⟩⟩
  · rw [count_eof tags rfl htag]
    simp only [step, hnext, rank]
    refine ⟨fun level => ?_, by omega⟩
    cases level <;> omega
  all_goals
    have he := congrArg UInt64.toNat hm.end_eq
    have hst := congrArg UInt64.toNat hm.start_eq
    have hle' := hm.le_end
    have hcount := count_tag tags (rfl : (Walk.graph g names).current = _) htag
    simp only [step, hnext, Inv, hcount, rank, he, hst, reduceCtorEq, if_true, if_false]
  · exact ⟨⟨hm.inside hin, by omega, htop, by omega, by omega⟩, by omega⟩
  · obtain ⟨hrange, hrend⟩ := inside_ofRange s len (by omega)
    simp only [hrend]
    refine ⟨⟨hm.inside hin, hrange, by omega, htop, by omega, by omega, ?_⟩, ?_⟩
    all_goals simp only [ofRange]; omega

theorem inv_step_value {g r : PbReader} {names : List Bytes}
    (h : (Walk.value g r names).Inv data n tags) (hw : ¬ r.Wraps m) :
    (step m (.value g r names)).Inv data n (count m (.value g r names) tags) ∧
      (step m (.value g r names)).rank < (Walk.value g r names).rank := by
  obtain ⟨hing, hin, hend, htop, hgraph, hrg, hvalue⟩ := h
  have hle := UInt64.le_iff_toNat_le.mp hin.le_end
  rcases (next_moved 1 hin hw).2 with ⟨htag, hnext⟩ | ⟨htag, r', hm, hp, hnext⟩
  · rw [count_eof tags rfl htag]
    simp only [step, hnext, rank, Inv]
    exact ⟨⟨hing, hend, htop, hgraph, by omega⟩, by omega⟩
  · have he := congrArg UInt64.toNat hm.end_eq
    have hle' := hm.le_end
    have hcount := count_tag tags (rfl : (Walk.value g r names).current = _) htag
    rcases hnext with hnext | ⟨s, len, hnext, -⟩
    all_goals
      simp only [step, hnext, Inv, hcount, rank, he, reduceCtorEq, if_true, if_false]
      exact ⟨⟨hing, hm.inside hin, hend, htop, hgraph, hrg, by omega⟩, by omega⟩

/-- A pass that does not wrap keeps the invariant and decreases the rank. -/
theorem inv_step (h : w.Inv data n tags) (hw : ¬ w.Wraps m) :
    (step m w).Inv data n (count m w tags) ∧ (¬ w.Done → (step m w).rank < w.rank) := by
  cases w with
  | top r => exact ⟨(inv_step_top h hw).1, fun _ => (inv_step_top h hw).2⟩
  | graph g names => exact ⟨(inv_step_graph h hw).1, fun _ => (inv_step_graph h hw).2⟩
  | value g r names => exact ⟨(inv_step_value h hw).1, fun _ => (inv_step_value h hw).2⟩
  | done names => exact ⟨h, fun hd => absurd trivial hd⟩

theorem Inv.tags_le (h : w.Inv data n tags) (level : Level) : tags level ≤ n := by
  cases w with
  | top r =>
    obtain ⟨hin, -, hend, htop, hgraph, hvalue⟩ := h
    have := UInt64.le_iff_toNat_le.mp hin.le_end
    cases level <;> omega
  | graph g names =>
    obtain ⟨hin, hend, htop, hgraph, hvalue⟩ := h
    have := UInt64.le_iff_toNat_le.mp hin.le_end
    cases level <;> omega
  | value g r names =>
    obtain ⟨hing, hin, hend, htop, hgraph, hrg, hvalue⟩ := h
    have := UInt64.le_iff_toNat_le.mp hing.le_end
    have := UInt64.le_iff_toNat_le.mp hin.le_end
    cases level <;> omega
  | done names => exact h level

theorem current_mem_readers {level : Level} {r : PbReader} (h : w.current = some (level, r)) :
    r ∈ w.readers := by
  cases w <;> simp_all [current, readers]

theorem unsafe_of_wraps (h : w.Wraps m) : ∃ c ∈ w.calls m, ¬ c.Safe := by
  unfold Wraps at h
  unfold calls
  split at h
  · exact PbReader.unsafe_of_wraps h
  · exact h.elim

theorem safe_of_inside (h : ∀ r ∈ w.readers, r.Inside) (hw : ¬ w.Wraps m) :
    ∀ c ∈ w.calls m, c.Safe := by
  unfold Wraps at hw
  unfold calls
  split at hw
  next level r hc => exact (next_moved 0 (h r (current_mem_readers hc)) hw).1
  next => simp

theorem Done.eq_done (h : w.Done) : ∃ names, w = .done names := by
  cases w with
  | done names => exact ⟨names, rfl⟩
  | _ => exact h.elim

theorem inv_start {data n : UInt64} (h : data.toNat + n.toNat < 2 ^ 64) :
    (start data n).Inv data.toNat n.toNat fun _ => 0 := by
  obtain ⟨hin, hend⟩ := inside_ofRange data n h
  exact ⟨hin, Nat.le_refl _, hend, by simp [ofRange], rfl, rfl⟩

end Walk

/-- The walk over `n` bytes at an address stays inside its ranges: readers keep their pointers
there, calls are safe, no loop reads more than `n` tags, and all loops end. -/
structure Contained (m : Mem) (data n : UInt64) : Prop where
  inside : ∀ k, ∀ r ∈ ((Walk.step m)^[k] (.start data n)).readers, r.Inside
  safe : ∀ k, ∀ c ∈ ((Walk.step m)^[k] (.start data n)).calls m, c.Safe
  tags_le : ∀ k level,
    Machine.visits (Walk.step m) (Walk.tagAt m level) (.start data n) k ≤ n.toNat
  ends : ∃ k names, (Walk.step m)^[k] (.start data n) = .done names

/-- For every buffer and all its contents, the walk stays inside its ranges and ends exactly when
no pointer addition wraps: neither the one to the end of the buffer, nor one in a pass. -/
theorem contained_iff (m : Mem) (data n : UInt64) :
    Contained m data n ↔ data.toNat + n.toNat < 2 ^ 64 ∧
      ∀ k, ¬ ((Walk.step m)^[k] (.start data n)).Wraps m := by
  constructor
  · intro h
    refine ⟨?_, fun k hw => ?_⟩
    · have hin := (h.inside 0 (ofRange data n) List.mem_cons_self).le_end
      by_contra hge
      have hadd := toNat_add_of_le (Nat.le_of_not_lt hge)
      have hlt := n.toNat_lt
      rw [UInt64.le_iff_toNat_le] at hin
      change data.toNat ≤ (data + n).toNat at hin
      omega
    · obtain ⟨c, hc, hunsafe⟩ := Walk.unsafe_of_wraps hw
      exact hunsafe (h.safe k c hc)
  · rintro ⟨hfit, hw⟩
    have hinv : ∀ k, ((Walk.step m)^[k] (.start data n)).Inv data.toNat n.toNat fun level =>
        Machine.visits (Walk.step m) (Walk.tagAt m level) (.start data n) k := by
      refine Machine.invariant (I := fun k w => Walk.Inv data.toNat n.toNat (fun level =>
        Machine.visits (Walk.step m) (Walk.tagAt m level) (.start data n) k) w)
        (Walk.inv_start hfit) fun k h => ?_
      simp only [Machine.visits_succ]
      exact (Walk.inv_step h (hw k)).1
    obtain ⟨k, -, hdone⟩ : ∃ k ≤ (Walk.start data n).rank,
        ((Walk.step m)^[k] (.start data n)).Done :=
      Machine.exists_of_rank Walk.rank fun k hd => (Walk.inv_step (hinv k) (hw k)).2 hd
    exact ⟨fun k => (hinv k).inside, fun k => Walk.safe_of_inside (hinv k).inside (hw k),
      fun k level => (hinv k).tags_le level, k, hdone.eq_done⟩

/-- A field whose length leads back to its own tag: `bytes` returns a range outside of the buffer
and the first loop never ends. -/
theorem not_contained_backwards :
    let m := Mem.ofBytes 4096 [10, 245, 255, 255, 255, 255, 255, 255, 255, 255, 1]
    ¬ Contained m 4096 11 ∧
      (ofRange 4096 11).calls m = [.tag (ofRange 4096 11) ⟨4096, 4097, 4107⟩,
        .bytes ⟨4096, 4097, 4107⟩ (ofRange 4096 11) 4107 (0 - 11)] ∧
      ∀ k, (Walk.step m)^[k] (.start 4096 11) = .start 4096 11 := by
  intro m
  have hstep : Walk.step m (.start 4096 11) = .start 4096 11 := by decide +kernel
  have hfix (k : ℕ) : (Walk.step m)^[k] (.start 4096 11) = .start 4096 11 :=
    Function.iterate_fixed hstep k
  refine ⟨fun h => ?_, by decide +kernel, hfix⟩
  obtain ⟨k, names, hk⟩ := h.ends
  exact absurd ((hfix k).symm.trans hk) (by simp [Walk.start])

end TrtShim.Onnx
