import TrtShim.Onnx.OutputNames

/-! # Staying inside the buffer

The pointer arithmetic of the reader wraps modulo `2 ^ 64` before its result is
compared with the end of the range. The walk stays inside its buffer and ends
exactly when none of these additions wraps.
-/

namespace TrtShim.Onnx

open PbReader

namespace PbReader

/-- The reader's pointer lies in its range. -/
structure Inside (r : PbReader) : Prop where
  start_le : r.start ≤ r.p
  le_end : r.p ≤ r.end_

/-- A call on a reader, with the reader before and after it. Only calls of `tag` that find a field
are of interest. -/
inductive Call where
  | tag (r r' : PbReader)
  | bytes (r r' : PbReader) (s len : UInt64)
  | skip (r r' : PbReader)
  deriving DecidableEq

/-- What is expected of a call: the pointer does not move backwards, a tag takes up some bytes, and
the bytes returned lie in the reader's range. -/
def Call.Safe : Call → Prop
  | .tag r r' => r.p < r'.p ∧ r'.Inside
  | .bytes r r' s len => r.p ≤ r'.p ∧ r'.Inside ∧ r.start ≤ s ∧
      s.toNat + len.toNat ≤ r.end_.toNat
  | .skip r r' => r.p ≤ r'.p ∧ r'.Inside

variable (m : Mem) (r : PbReader)

/-- The calls of a pass. A field of wire type two is read with `bytes`, wanted or not. -/
def calls : List Call :=
  match r.tag m with
  | none => []
  | some (_, w, r') =>
    if w = 2 then
      let (s, len, r'') := r'.bytes m
      [.tag r r', .bytes r' r'' s len]
    else [.tag r r', .skip r' (r'.skip m w)]

/-- The addition to the pointer that skipping a value of this wire type makes wraps. -/
def AddWraps (w : UInt32) : Prop :=
  if w = 1 then 2 ^ 64 ≤ r.p.toNat + 8
  else if w = 2 then 2 ^ 64 ≤ (r.varint m).2.p.toNat + (r.varint m).1.toNat
  else if w = 5 then 2 ^ 64 ≤ r.p.toNat + 4
  else False

/-- The addition to the pointer that follows the tag of a pass wraps. -/
def Wraps : Prop :=
  match r.tag m with
  | none => False
  | some (_, w, r') => r'.AddWraps m w

/-- The reader has moved inside its range. -/
structure Moved (r r' : PbReader) : Prop where
  start_eq : r'.start = r.start
  end_eq : r'.end_ = r.end_
  le : r.p.toNat ≤ r'.p.toNat
  le_end : r'.p.toNat ≤ r.end_.toNat

variable {m r}

theorem varintLoop_bounds (m : Mem) (end_ : UInt64) (passes : ℕ) (p acc : UInt64) (shift : ℕ)
    (h : p.toNat ≤ end_.toNat) :
    p.toNat ≤ (varintLoop m end_ passes p acc shift).2.toNat ∧
      (varintLoop m end_ passes p acc shift).2.toNat ≤ end_.toNat := by
  induction passes generalizing p acc shift with
  | zero => exact ⟨Nat.le_refl _, h⟩
  | succ passes ih =>
    by_cases hc : p.toNat < end_.toNat ∧ shift < 64
    · have hend := end_.toNat_lt
      have hnext : (p + 1).toNat = p.toNat + 1 := Mem.toNat_add_ofNat (n := 1) (by omega)
      obtain ⟨hle, hle'⟩ := ih (p + 1) (acc ||| (m p &&& 0x7f).toUInt64 <<< UInt64.ofNat shift)
        (shift + 7) (by omega)
      rw [varintLoop_succ hc.1 hc.2]
      dsimp only
      split
      · exact ⟨by simp only [hnext]; omega, by simp only [hnext]; omega⟩
      · exact ⟨by omega, hle'⟩
    · rw [varintLoop, if_neg (by rwa [UInt64.lt_iff_toNat_lt])]
      exact ⟨Nat.le_refl _, h⟩

theorem varint_p : (r.varint m).2.p = (varintLoop m r.end_ 10 r.p 0 0).2 := rfl

/-- The pointer after `varint`. -/
theorem varint_bounds (h : r.p.toNat ≤ r.end_.toNat) :
    r.p.toNat ≤ (r.varint m).2.p.toNat ∧ (r.varint m).2.p.toNat ≤ r.end_.toNat := by
  rw [varint_p]
  exact varintLoop_bounds m r.end_ 10 r.p 0 0 h

theorem lt_varint (h : r.p.toNat < r.end_.toNat) : r.p.toNat < (r.varint m).2.p.toNat := by
  have hend := r.end_.toNat_lt
  have hnext : (r.p + 1).toNat = r.p.toNat + 1 := Mem.toNat_add_ofNat (n := 1) (by omega)
  have hrest := (varintLoop_bounds m r.end_ 9 (r.p + 1)
    (0 ||| (m r.p &&& 0x7f).toUInt64 <<< UInt64.ofNat 0) (0 + 7) (by omega)).1
  rw [varint_p, varintLoop_succ h (by decide)]
  dsimp only
  split
  · simp only [hnext]
    omega
  · omega

theorem varint_moved (h : r.p.toNat ≤ r.end_.toNat) : Moved r (r.varint m).2 :=
  ⟨rfl, rfl, (varint_bounds h).1, (varint_bounds h).2⟩

theorem tag_moved {f w : UInt32} {r' : PbReader} (ht : r.tag m = some (f, w, r')) :
    Moved r r' ∧ r.p.toNat < r'.p.toNat := by
  rw [tag] at ht
  split at ht
  next => exact absurd ht (by simp)
  next heof =>
    rw [PbReader.eof, decide_eq_true_iff, UInt64.le_iff_toNat_le] at heof
    obtain rfl : (r.varint m).2 = r' := congrArg (fun v => v.2.2) (Option.some.inj ht)
    exact ⟨varint_moved (by omega), lt_varint (by omega)⟩

theorem bytes_eq (m : Mem) (r : PbReader) :
    r.bytes m =
      let q := (r.varint m).2.p
      let len := if q + (r.varint m).1 > r.end_ then r.end_ - q else (r.varint m).1
      (q, len, { r with p := q + len }) := rfl

theorem toNat_add_of_lt {p k : UInt64} (h : p.toNat + k.toNat < 2 ^ 64) :
    (p + k).toNat = p.toNat + k.toNat := by
  rw [UInt64.toNat_add, Nat.mod_eq_of_lt h]

/-- Without wrapping, `bytes` returns a part of the range and moves past it. -/
theorem bytes_moved (h : r.p.toNat ≤ r.end_.toNat) (hw : ¬ r.AddWraps m 2) :
    ∃ s len r', r.bytes m = (s, len, r') ∧ Moved r r' ∧ r.p.toNat ≤ s.toNat ∧
      s.toNat + len.toNat = r'.p.toNat := by
  obtain ⟨hle, hle'⟩ := varint_bounds (m := m) h
  have hsum : (r.varint m).2.p.toNat + (r.varint m).1.toNat < 2 ^ 64 := by
    simpa [AddWraps] using hw
  have hend := r.end_.toNat_lt
  rw [bytes_eq]
  by_cases hover : (r.varint m).2.p + (r.varint m).1 > r.end_
  · have hsub := UInt64.toNat_sub_of_le r.end_ _ (UInt64.le_iff_toNat_le.mpr hle')
    have hadd : ((r.varint m).2.p + (r.end_ - (r.varint m).2.p)).toNat = r.end_.toNat := by
      rw [toNat_add_of_lt (by omega)]
      omega
    simp only [if_pos hover]
    exact ⟨_, _, _, rfl, ⟨rfl, rfl, hadd ▸ h, Nat.le_of_eq hadd⟩, hle, by simp only [hadd]; omega⟩
  · have hadd := toNat_add_of_lt hsum
    rw [gt_iff_lt, UInt64.not_lt, UInt64.le_iff_toNat_le, hadd] at hover
    simp only [gt_iff_lt, UInt64.lt_iff_toNat_lt, hadd, if_neg (Nat.not_lt.mpr hover)]
    exact ⟨_, _, _, rfl, ⟨rfl, rfl, by simp only [hadd]; omega, by simp only [hadd]; omega⟩, hle,
      hadd.symm⟩

theorem min_moved {k : UInt64} (h : r.p.toNat ≤ r.end_.toNat)
    (hk : r.p.toNat + k.toNat < 2 ^ 64) : Moved r { r with p := min (r.p + k) r.end_ } := by
  have hadd := toNat_add_of_lt hk
  by_cases hle : r.p + k ≤ r.end_
  · have hmin : min (r.p + k) r.end_ = r.p + k := if_pos hle
    rw [UInt64.le_iff_toNat_le] at hle
    exact ⟨rfl, rfl, by simp only [hmin, hadd]; omega, by simp only [hmin]; omega⟩
  · have hmin : min (r.p + k) r.end_ = r.end_ := if_neg hle
    exact ⟨rfl, rfl, by simp only [hmin]; omega, by simp only [hmin]; omega⟩

theorem skip_moved {w : UInt32} (h : r.p.toNat ≤ r.end_.toNat) (hw : ¬ r.AddWraps m w) :
    Moved r (r.skip m w) := by
  unfold skip
  split
  next => exact varint_moved h
  next =>
    split
    next h1 =>
      rw [AddWraps, if_pos h1, Nat.not_le] at hw
      exact min_moved h hw
    next h1 =>
      split
      next h2 =>
        obtain ⟨s, len, r', hb, hm, -⟩ := bytes_moved h (h2 ▸ hw)
        rwa [hb]
      next h2 =>
        split
        next h5 =>
          rw [AddWraps, if_neg h1, if_neg h2, if_pos h5, Nat.not_le] at hw
          exact min_moved h hw
        next => exact ⟨rfl, rfl, h, Nat.le_refl _⟩

theorem Moved.trans {r' r'' : PbReader} (h : Moved r r') (h' : Moved r' r'') : Moved r r'' :=
  ⟨h'.start_eq.trans h.start_eq, h'.end_eq.trans h.end_eq, Nat.le_trans h.le h'.le,
    h.end_eq ▸ h'.le_end⟩

theorem Moved.inside {r' : PbReader} (h : Moved r r') (hr : r.Inside) : r'.Inside where
  start_le := by
    have := UInt64.le_iff_toNat_le.mp hr.start_le
    rw [h.start_eq, UInt64.le_iff_toNat_le]
    exact Nat.le_trans this h.le
  le_end := by
    rw [h.end_eq, UInt64.le_iff_toNat_le]
    exact h.le_end

theorem Moved.le_end' {r' : PbReader} (h : Moved r r') : r'.p.toNat ≤ r'.end_.toNat :=
  h.end_eq ▸ h.le_end

/-- What a pass that does not wrap does: it finds nothing, or takes up some bytes and goes on
inside the range. -/
theorem next_moved (field : UInt32) (h : r.Inside) (hw : ¬ r.Wraps m) :
    (∀ c ∈ r.calls m, c.Safe) ∧
    ((r.tag m = none ∧ r.next m field = .eof) ∨
      (r.tag m).isSome ∧ ∃ r', Moved r r' ∧ r.p.toNat < r'.p.toNat ∧
        (r.next m field = .skipped r' ∨ ∃ s len, r.next m field = .found s len r' ∧
          r.p.toNat < s.toNat ∧ s.toNat + len.toNat = r'.p.toNat)) := by
  cases ht : r.tag m with
  | none => simp [calls, next, ht]
  | some v =>
    obtain ⟨f, w, r₁⟩ := v
    obtain ⟨hm, hlt⟩ := tag_moved ht
    have hin := hm.inside h
    simp only [Wraps, ht] at hw
    have htag : (Call.tag r r₁).Safe := ⟨UInt64.lt_iff_toNat_lt.mpr hlt, hin⟩
    by_cases h2 : w = 2
    · subst h2
      obtain ⟨s, len, r₂, hb, hm₂, hs, hlen⟩ := bytes_moved hm.le_end' hw
      have hbytes : (Call.bytes r₁ r₂ s len).Safe := by
        refine ⟨UInt64.le_iff_toNat_le.mpr hm₂.le, hm₂.inside hin, ?_, hlen ▸ hm₂.le_end⟩
        have := UInt64.le_iff_toNat_le.mp hin.start_le
        rw [UInt64.le_iff_toNat_le]
        omega
      refine ⟨by simp [calls, ht, hb, htag, hbytes], .inr ⟨rfl, r₂, hm.trans hm₂, ?_, ?_⟩⟩
      · exact Nat.lt_of_lt_of_le hlt hm₂.le
      · by_cases hf : f = field
        · exact .inr ⟨s, len, by simp [next, ht, hb, hf], by omega, hlen⟩
        · exact .inl (by simp [next, ht, hf, skip, hb])
    · have hm₂ := skip_moved hm.le_end' hw
      have hskip : (Call.skip r₁ (r₁.skip m w)).Safe :=
        ⟨UInt64.le_iff_toNat_le.mpr hm₂.le, hm₂.inside hin⟩
      refine ⟨by simp [calls, ht, h2, htag, hskip], .inr ⟨rfl, _, hm.trans hm₂, ?_, .inl ?_⟩⟩
      · exact Nat.lt_of_lt_of_le hlt hm₂.le
      · simp [next, ht, h2]

theorem toNat_add_of_le {p k : UInt64} (h : 2 ^ 64 ≤ p.toNat + k.toNat) :
    (p + k).toNat + 2 ^ 64 = p.toNat + k.toNat := by
  have hp := p.toNat_lt
  have hk := k.toNat_lt
  rw [UInt64.toNat_add]
  omega

theorem not_safe_skip {k : UInt64} {r' : PbReader} (h : r.p.toNat ≤ r.end_.toNat)
    (hk : 2 ^ 64 ≤ r.p.toNat + k.toNat) (hr : r' = { r with p := min (r.p + k) r.end_ }) :
    ¬ (Call.skip r r').Safe := by
  rintro ⟨hle, -⟩
  have hadd := toNat_add_of_le hk
  have hlt := k.toNat_lt
  have hmin : min (r.p + k) r.end_ = r.p + k :=
    if_pos (by rw [UInt64.le_iff_toNat_le]; omega)
  rw [hr, UInt64.le_iff_toNat_le] at hle
  simp only [hmin] at hle
  omega

theorem not_safe_bytes (h : r.p.toNat ≤ r.end_.toNat)
    (hw : 2 ^ 64 ≤ (r.varint m).2.p.toNat + (r.varint m).1.toNat) :
    ¬ (Call.bytes r (r.bytes m).2.2 (r.bytes m).1 (r.bytes m).2.1).Safe := by
  rintro ⟨-, -, -, hlen⟩
  have hadd := toNat_add_of_le hw
  have hlt := (r.varint m).1.toNat_lt
  have hend := r.end_.toNat_lt
  have hle := (varint_bounds (m := m) h).2
  have hover : ¬ (r.varint m).2.p + (r.varint m).1 > r.end_ := by
    rw [gt_iff_lt, UInt64.not_lt, UInt64.le_iff_toNat_le]
    omega
  rw [bytes_eq] at hlen
  simp only [if_neg hover] at hlen
  omega

/-- A pass that wraps makes a call that is not safe. -/
theorem unsafe_of_wraps (hw : r.Wraps m) : ∃ c ∈ r.calls m, ¬ c.Safe := by
  cases ht : r.tag m with
  | none => simp [Wraps, ht] at hw
  | some v =>
    obtain ⟨f, w, r₁⟩ := v
    have hle := (tag_moved ht).1.le_end'
    simp only [Wraps, ht, AddWraps] at hw
    split at hw
    next h1 =>
      refine ⟨.skip r₁ (r₁.skip m w), by simp [calls, ht, h1], not_safe_skip (k := 8) hle hw ?_⟩
      simp [skip, h1]
    next h1 =>
      split at hw
      next h2 => exact ⟨_, by simp [calls, ht, h2], not_safe_bytes hle hw⟩
      next h2 =>
        split at hw
        next h5 =>
          refine ⟨.skip r₁ (r₁.skip m w), by simp [calls, ht, h5], not_safe_skip (k := 4) hle hw ?_⟩
          simp [skip, h5]
        next => exact hw.elim

end PbReader

end TrtShim.Onnx
