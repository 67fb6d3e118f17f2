import TrtShim.Bytes.Memory
import TrtShim.Wire.Message

/-! # The protocol buffer reader

`PbReader` walks a range of memory with 64-bit addresses, and its pointer
arithmetic wraps as theirs does. On a well-formed field it reads exactly the
field.
-/

namespace TrtShim.Onnx

open Wire

/-- `PbReader`. The address at which the reader was made is kept for the statements about it. -/
structure PbReader where
  start : UInt64
  p : UInt64
  end_ : UInt64
  deriving DecidableEq

namespace PbReader

/-- The constructor. -/
def ofRange (p n : UInt64) : PbReader := ⟨p, p, p + n⟩

def eof (r : PbReader) : Bool := r.end_ ≤ r.p

/-- The loop of `varint`, from a pointer, the bits read so far and their number. The test on the
shift fails after ten passes. -/
def varintLoop (m : Mem) (end_ : UInt64) : ℕ → UInt64 → UInt64 → ℕ → UInt64 × UInt64
  | 0, p, r, _ => (r, p)
  | passes + 1, p, r, shift =>
    if p < end_ ∧ shift < 64 then
      let b := m p
      let r := r ||| ((b &&& 0x7f).toUInt64 <<< UInt64.ofNat shift)
      if b &&& 0x80 = 0 then (r, p + 1) else varintLoop m end_ passes (p + 1) r (shift + 7)
    else (r, p)

variable (m : Mem) (r : PbReader)

def varint : UInt64 × PbReader :=
  let (v, p) := varintLoop m r.end_ 10 r.p 0 0
  (v, { r with p })

/-- `tag`: the field number and the wire type, unless the range is at its end. -/
def tag : Option (UInt32 × UInt32 × PbReader) :=
  if r.eof then none
  else
    let (t, r) := r.varint m
    some ((t >>> 3).toUInt32, (t &&& 7).toUInt32, r)

/-- `bytes`: the pointer and the length of a length-delimited value. -/
def bytes : UInt64 × UInt64 × PbReader :=
  let (len, r) := r.varint m
  let len := if r.p + len > r.end_ then r.end_ - r.p else len
  (r.p, len, { r with p := r.p + len })

def skip (wire : UInt32) : PbReader :=
  if wire = 0 then (r.varint m).2
  else if wire = 1 then { r with p := min (r.p + 8) r.end_ }
  else if wire = 2 then (r.bytes m).2.2
  else if wire = 5 then { r with p := min (r.p + 4) r.end_ }
  else { r with p := r.end_ }

/-- How a pass of a loop over the fields of a message ends. -/
inductive Next where
  | eof
  | found (s len : UInt64) (r : PbReader)
  | skipped (r : PbReader)

/-- A pass of a loop that looks for a length-delimited field and skips the others. -/
def next (field : UInt32) : Next :=
  match r.tag m with
  | none => .eof
  | some (f, w, r) =>
    if f = field ∧ w = 2 then
      let (s, len, r) := r.bytes m
      .found s len r
    else .skipped (r.skip m w)

end PbReader

/-! ## Well-formed fields -/

theorem toNat_or_group {r : UInt64} {b : UInt8} {shift : ℕ} (hs : shift < 64)
    (hr : r.toNat < 2 ^ shift) :
    (r ||| ((b &&& 0x7f).toUInt64 <<< UInt64.ofNat shift)).toNat =
      r.toNat + 2 ^ shift * (b.toNat % 128) % 2 ^ 64 := by
  have hb : (b &&& 0x7f).toNat = b.toNat % 128 := by
    rw [UInt8.toNat_and]
    exact Nat.and_two_pow_sub_one_eq_mod b.toNat 7
  have hsplit : 2 ^ shift * (b.toNat % 128) % 2 ^ 64 =
      2 ^ shift * (b.toNat % 128 % 2 ^ (64 - shift)) := by
    have h64 : 2 ^ 64 = 2 ^ shift * 2 ^ (64 - shift) := by
      rw [← Nat.pow_add, Nat.add_sub_cancel' (Nat.le_of_lt hs)]
    rw [h64, Nat.mul_mod_mul_left]
  rw [UInt64.toNat_or, UInt64.toNat_shiftLeft, UInt8.toNat_toUInt64, hb, UInt64.toNat_ofNat',
    Nat.mod_eq_of_lt (by omega : shift < 2 ^ 64), Nat.mod_eq_of_lt hs, Nat.shiftLeft_eq,
    Nat.mul_comm, hsplit, Nat.or_comm, ← Nat.two_pow_add_eq_or_of_lt hr, Nat.add_comm]

theorem and_high_eq_zero (b : UInt8) : b &&& 0x80 = 0 ↔ b < 128 := by
  have h : ∀ n < 256, UInt8.ofNat n &&& 0x80 = 0 ↔ UInt8.ofNat n < 128 := by decide +kernel
  simpa using h b.toNat b.toNat_lt

namespace PbReader

variable {m : Mem} {r : PbReader} {rest : Bytes}

/-- One pass of the loop over a byte of a varint. -/
theorem varintLoop_succ {end_ p acc : UInt64} {passes shift : ℕ}
    (hend : p.toNat < end_.toNat) (hs : shift < 64) :
    varintLoop m end_ (passes + 1) p acc shift =
      let acc := acc ||| ((m p &&& 0x7f).toUInt64 <<< UInt64.ofNat shift)
      if m p < 128 then (acc, p + 1)
      else varintLoop m end_ passes (p + 1) acc (shift + 7) := by
  have hc : p < end_ ∧ shift < 64 := ⟨UInt64.lt_iff_toNat_lt.mpr hend, hs⟩
  simp only [varintLoop, hc, and_self, if_true, and_high_eq_zero]

theorem varintLoop_form {end_ p acc : UInt64} {passes shift : ℕ} {bs : Bytes} (hbs : IsVarint bs)
    (hm : m.Holds p bs) (hend : p.toNat + bs.length ≤ end_.toNat) (hpasses : bs.length ≤ passes)
    (hshift : shift + 7 * bs.length ≤ 70) (hacc : acc.toNat < 2 ^ shift) :
    varintLoop m end_ passes p acc shift =
      (UInt64.ofNat (acc.toNat + 2 ^ shift * groups bs), p + UInt64.ofNat bs.length) := by
  induction hbs generalizing p acc passes shift with
  | @last b h =>
    rw [List.length_singleton] at hend hpasses hshift
    have hs : shift < 64 := by omega
    have hvalue := toNat_or_group (b := b) hs hacc
    have hlt := (acc ||| ((b &&& 0x7f).toUInt64 <<< UInt64.ofNat shift)).toNat_lt
    obtain ⟨passes, rfl⟩ := Nat.exists_eq_succ_of_ne_zero (by omega : passes ≠ 0)
    rw [varintLoop_succ (by omega) hs, hm.1, if_pos h]
    refine Prod.ext (UInt64.toNat_inj.mp ?_) rfl
    simp only [UInt64.toNat_ofNat', groups, Nat.mul_zero, Nat.add_zero]
    omega
  | @more b bs h hbs ih =>
    rw [List.length_cons] at hend hpasses hshift
    have hpos := List.length_pos_of_ne_nil hbs.ne_nil
    have hs : shift < 64 := by omega
    have hvalue := toNat_or_group (b := b) hs hacc
    obtain ⟨passes, rfl⟩ := Nat.exists_eq_succ_of_ne_zero (by omega : passes ≠ 0)
    rw [varintLoop_succ (by omega) hs, hm.1, if_neg (UInt8.not_lt.mpr h)]
    have hnext : (p + 1).toNat = p.toNat + 1 := by
      have := end_.toNat_lt
      exact Mem.toNat_add_ofNat (n := 1) (by omega)
    have hacc' : (acc ||| ((b &&& 0x7f).toUInt64 <<< UInt64.ofNat shift)).toNat <
        2 ^ (shift + 7) := by
      have hmod : b.toNat % 128 < 128 := Nat.mod_lt _ (by decide)
      have hle := Nat.mod_le (2 ^ shift * (b.toNat % 128)) (2 ^ 64)
      have hmul : 2 ^ shift * (b.toNat % 128) ≤ 2 ^ shift * 127 :=
        Nat.mul_le_mul_left _ (by omega)
      rw [hvalue, Nat.pow_add]
      omega
    rw [ih hm.2 (by omega) (by omega) (by omega) hacc', hvalue]
    refine Prod.ext (UInt64.toNat_inj.mp ?_) (Mem.succ_add_ofNat p bs.length)
    have hsplit : 2 ^ shift * (b.toNat % 128 + 128 * groups bs) =
        2 ^ shift * (b.toNat % 128) + 2 ^ (shift + 7) * groups bs := by
      rw [Nat.mul_add, Nat.pow_add, Nat.mul_assoc]
    rw [UInt64.toNat_ofNat', UInt64.toNat_ofNat', groups, hsplit]
    omega

/-- The unread part of the reader's range is `rest`. -/
structure At (m : Mem) (rest : Bytes) (r : PbReader) : Prop where
  holds : m.Holds r.p rest
  end_eq : r.p.toNat + rest.length = r.end_.toNat

/-- The reader `k` bytes further on. -/
def advance (r : PbReader) (k : ℕ) : PbReader := { r with p := r.p + UInt64.ofNat k }

theorem At.advance {xs : Bytes} (h : At m (xs ++ rest) r) : At m rest (r.advance xs.length) where
  holds := (Mem.holds_append.mp h.holds).2
  end_eq := by
    have hlt := r.end_.toNat_lt
    have hend := h.end_eq
    rw [List.length_append] at hend
    change (r.p + UInt64.ofNat xs.length).toNat + rest.length = r.end_.toNat
    rw [Mem.toNat_add_ofNat (by omega)]
    omega

@[simp] theorem advance_advance (j k : ℕ) : (r.advance j).advance k = r.advance (j + k) := by
  simp [PbReader.advance, UInt64.add_assoc, UInt64.ofNat_add]

theorem varint_at {v : Varint} (h : At m (v.bytes ++ rest) r) :
    r.varint m = (v.value, r.advance v.bytes.length) := by
  have hend := h.end_eq
  have hlen := v.length_le
  rw [List.length_append] at hend
  have hloop : varintLoop m r.end_ 10 r.p 0 0 =
      (UInt64.ofNat (0 + 2 ^ 0 * groups v.bytes), r.p + UInt64.ofNat v.bytes.length) :=
    varintLoop_form v.isVarint (Mem.holds_append.mp h.holds).1 (by omega) hlen (by omega)
      (by decide)
  rw [varint, hloop]
  simp [PbReader.advance, Varint.value]

theorem tag_at {f : Field} (h : At m (f.tag.bytes ++ rest) r) :
    r.tag m = some (UInt32.ofNat f.number, UInt32.ofNat f.payload.wireType,
      r.advance f.tag.bytes.length) := by
  have hend := h.end_eq
  have hpos := List.length_pos_of_ne_nil f.tag.isVarint.ne_nil
  have htag := f.tag_eq
  have hwire := f.wireType_lt
  have hnumber := f.number_lt
  rw [List.length_append] at hend
  have heof : r.eof = false := by
    rw [PbReader.eof, decide_eq_false_iff_not, UInt64.le_iff_toNat_le]
    omega
  have hfield : (f.tag.value >>> 3).toUInt32 = UInt32.ofNat f.number := by
    refine UInt32.toNat_inj.mp ?_
    rw [UInt64.toNat_toUInt32, UInt64.toNat_shiftRight, UInt32.toNat_ofNat',
      Nat.shiftRight_eq_div_pow]
    simp only [UInt64.reduceToNat, Nat.reduceMod, Nat.reducePow]
    omega
  have hlow : (f.tag.value &&& 7).toUInt32 = UInt32.ofNat f.payload.wireType := by
    have hmod : f.tag.value.toNat &&& 7 = f.tag.value.toNat % 8 :=
      Nat.and_two_pow_sub_one_eq_mod _ 3
    refine UInt32.toNat_inj.mp ?_
    rw [UInt64.toNat_toUInt32, UInt64.toNat_and, UInt32.toNat_ofNat']
    simp only [UInt64.reduceToNat, hmod]
    omega
  simp only [tag, heof, varint_at h, hfield, hlow, Bool.false_eq_true, if_false]

/-- Reading a length-delimited value that lies in the range. -/
theorem bytes_at {len : Varint} {xs : Bytes} (hlen : len.value.toNat = xs.length)
    (h : At m (len.bytes ++ (xs ++ rest)) r) :
    r.bytes m = (r.p + UInt64.ofNat len.bytes.length, len.value,
      r.advance (len.bytes.length + xs.length)) := by
  have hrest := h.advance.end_eq
  rw [List.length_append] at hrest
  have hlt := r.end_.toNat_lt
  change (r.p + UInt64.ofNat len.bytes.length).toNat + _ = r.end_.toNat at hrest
  have hfits : ¬ r.p + UInt64.ofNat len.bytes.length + len.value > r.end_ := by
    rw [gt_iff_lt, UInt64.not_lt, UInt64.le_iff_toNat_le, UInt64.toNat_add, hlen]
    omega
  have hvalue : UInt64.ofNat xs.length = len.value := by rw [← hlen, UInt64.ofNat_toNat]
  simp only [bytes, varint_at h, PbReader.advance, hfits, if_false]
  rw [UInt64.ofNat_add, hvalue, UInt64.add_assoc]

theorem advance_eq_min {xs : Bytes} (h : At m (xs ++ rest) r) (k : UInt64)
    (hk : k.toNat = xs.length) : { r with p := min (r.p + k) r.end_ } = r.advance xs.length := by
  have hend := h.end_eq
  have hlt := r.end_.toNat_lt
  rw [List.length_append] at hend
  have hle : r.p + k ≤ r.end_ := by
    rw [UInt64.le_iff_toNat_le, UInt64.toNat_add, hk]
    omega
  have hmin : min (r.p + k) r.end_ = r.p + k := if_pos hle
  rw [hmin, PbReader.advance, ← hk, UInt64.ofNat_toNat]

theorem skip_at {payload : Payload} (h : At m (payload.encode ++ rest) r) :
    r.skip m (UInt32.ofNat payload.wireType) = r.advance payload.encode.length := by
  cases payload with
  | varint v => exact congrArg Prod.snd (varint_at h)
  | fixed64 xs hxs => exact advance_eq_min h 8 hxs.symm
  | lengthDelimited len xs hlen =>
    rw [Payload.encode, List.append_assoc] at h
    have hb := congrArg (fun v => v.2.2) (bytes_at hlen h)
    rwa [Payload.encode, List.length_append]
  | fixed32 xs hxs => exact advance_eq_min h 4 hxs.symm

/-- The range that `bytes` returns for a length-delimited value. -/
theorem range_at {len : Varint} {xs : Bytes} (hlen : len.value.toNat = xs.length)
    (h : At m (len.bytes ++ (xs ++ rest)) r) :
    let s := r.p + UInt64.ofNat len.bytes.length
    At m xs (ofRange s len.value) ∧ m.read s len.value.toNat = xs ∧ s ≠ 0 := by
  have hpos := List.length_pos_of_ne_nil len.isVarint.ne_nil
  have hend := h.end_eq
  have hlt := r.end_.toNat_lt
  rw [List.length_append, List.length_append] at hend
  have hholds := (Mem.holds_append.mp h.advance.holds).1
  have hs : (r.p + UInt64.ofNat len.bytes.length).toNat = r.p.toNat + len.bytes.length :=
    Mem.toNat_add_ofNat (by omega)
  refine ⟨⟨hholds, ?_⟩, ?_, fun hz => ?_⟩
  · change (r.p + UInt64.ofNat len.bytes.length).toNat + xs.length =
      (r.p + UInt64.ofNat len.bytes.length + len.value).toNat
    rw [UInt64.toNat_add (r.p + _), hs, hlen]
    omega
  · rw [hlen]
    exact Mem.read_of_holds hholds
  · rw [hz] at hs
    simp only [UInt64.reduceToNat] at hs
    omega

/-- A pass of a loop over a well-formed field. -/
theorem next_at (field : UInt32) (n : ℕ) (hfn : field = UInt32.ofNat n) (hn : n < 2 ^ 29)
    {f : Field} (h : At m (f.encode ++ rest) r) :
    (∃ s len xs, r.next m field = .found s len (r.advance f.encode.length) ∧
      f.delimited n = some xs ∧ At m xs (ofRange s len) ∧ m.read s len.toNat = xs ∧ s ≠ 0) ∨
    (r.next m field = .skipped (r.advance f.encode.length) ∧ f.delimited n = none) := by
  subst hfn
  obtain ⟨number, number_lt, payload, tag, tag_eq⟩ := f
  rw [Field.encode, List.append_assoc] at h
  have htag := tag_at h
  have hwire : payload.wireType < 8 := Field.wireType_lt ⟨number, number_lt, payload, tag, tag_eq⟩
  have hfield : UInt32.ofNat number = UInt32.ofNat n ↔ number = n := by
    rw [← UInt32.toNat_inj, UInt32.toNat_ofNat', UInt32.toNat_ofNat']
    omega
  have htwo : UInt32.ofNat payload.wireType = 2 ↔ payload.wireType = 2 := by
    rw [← UInt32.toNat_inj, UInt32.toNat_ofNat']
    simp only [UInt32.reduceToNat]
    omega
  have hskip (hd : ¬ (number = n ∧ payload.wireType = 2)) :
      r.next m (UInt32.ofNat n) = .skipped (r.advance (tag.bytes ++ payload.encode).length) := by
    have hs := skip_at h.advance
    rw [advance_advance] at hs
    rw [next, htag]
    simp only [hfield, htwo, hd, if_false, hs, List.length_append]
  cases payload with
  | lengthDelimited len xs hlen =>
    by_cases hnum : number = n
    · left
      have hat := h.advance
      rw [Payload.encode, List.append_assoc] at hat
      have hb := bytes_at hlen hat
      rw [advance_advance] at hb
      refine ⟨_, _, xs, ?_, by simp [Field.delimited, hnum], range_at hlen hat⟩
      have hcond := And.intro (hfield.mpr hnum) (htwo.mpr rfl)
      rw [next, htag]
      simp only [if_pos hcond, hb, Field.encode, Payload.encode, List.length_append]
    · exact .inr ⟨hskip fun hd => hnum hd.1, by simp [Field.delimited, hnum]⟩
  | varint v => exact .inr ⟨hskip (by simp [Payload.wireType]), rfl⟩
  | fixed64 xs hxs => exact .inr ⟨hskip (by simp [Payload.wireType]), rfl⟩
  | fixed32 xs hxs => exact .inr ⟨hskip (by simp [Payload.wireType]), rfl⟩

theorem next_at_end {n : UInt32} (h : At m [] r) : r.next m n = .eof := by
  have hend := h.end_eq
  have heof : r.eof = true := by
    rw [PbReader.eof, decide_eq_true_iff, UInt64.le_iff_toNat_le]
    simp only [List.length_nil] at hend
    omega
  rw [next, tag, heof]
  rfl

end PbReader

end TrtShim.Onnx
