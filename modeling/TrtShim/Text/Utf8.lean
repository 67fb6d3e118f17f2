import TrtShim.Bytes.Words
import TrtShim.Text.Strings

/-! # UTF-8

The bytes of a string determine it. The bytes of code points that are not ASCII are
not ASCII either, so an ASCII character is found in the bytes of a string exactly
where it is found in the string.
-/

namespace TrtShim.Str

/-- `s.encode()`. -/
def utf8 (s : Str) : Bytes := s.flatMap String.utf8EncodeChar

/-- The byte of an ASCII character. -/
def byte (c : Char) : UInt8 := UInt8.ofNat c.toNat

def IsAscii (s : Str) : Prop := ∀ c ∈ s, c.toNat < 128

instance (s : Str) : Decidable (IsAscii s) := List.decidableBAll _ _

variable {s t : Str} {c d : Char} {b : UInt8}

theorem utf8_injective : Function.Injective utf8 := fun s t h => by
  have hencode : s.utf8Encode = t.utf8Encode := congrArg List.toByteArray h
  have hdecode := congrArg ByteArray.utf8Decode? hencode
  rw [List.utf8Decode?_utf8Encode, List.utf8Decode?_utf8Encode, Option.some.injEq] at hdecode
  exact List.toArray_inj hdecode

@[simp] theorem utf8_nil : utf8 [] = [] := rfl

@[simp] theorem utf8_append : utf8 (s ++ t) = utf8 s ++ utf8 t := List.flatMap_append

theorem utf8EncodeChar_ascii (hc : c.toNat < 128) : String.utf8EncodeChar c = [byte c] := by
  have hle : c.val.toNat ≤ 127 := Nat.le_of_lt_succ hc
  simp only [String.utf8EncodeChar, hle, if_true]
  rfl

/-- The bytes of a code point that is not ASCII are not ASCII. -/
theorem le_of_mem_utf8EncodeChar (hc : 128 ≤ c.toNat) (hb : b ∈ String.utf8EncodeChar c) :
    128 ≤ b.toNat := by
  have hgt : ¬ c.val.toNat ≤ 127 := Nat.not_le.mpr hc
  simp only [String.utf8EncodeChar, hgt, if_false] at hb
  split at hb
  · simp only [List.mem_cons, List.not_mem_nil, or_false] at hb
    rcases hb with rfl | rfl
    all_goals rw [UInt8.toNat_ofNat']; omega
  · split at hb
    · simp only [List.mem_cons, List.not_mem_nil, or_false] at hb
      rcases hb with rfl | rfl | rfl
      all_goals rw [UInt8.toNat_ofNat']; omega
    · simp only [List.mem_cons, List.not_mem_nil, or_false] at hb
      rcases hb with rfl | rfl | rfl | rfl
      all_goals rw [UInt8.toNat_ofNat']; omega

/-- The encoding of an ASCII string. -/
theorem utf8_ascii (h : IsAscii s) : utf8 s = s.map byte := by
  induction s with
  | nil => rfl
  | cons c s ih =>
    obtain ⟨hc, hs⟩ := List.forall_mem_cons.mp h
    rw [utf8, List.flatMap_cons, utf8EncodeChar_ascii hc, List.map_cons, ← ih hs]
    rfl

theorem toNat_byte (hc : c.toNat < 128) : (byte c).toNat = c.toNat := by
  rw [byte, UInt8.toNat_ofNat', Nat.mod_eq_of_lt (by omega)]

/-- An ASCII character is in a string exactly if its byte is in the encoding. -/
theorem mem_utf8 (hc : c.toNat < 128) : byte c ∈ utf8 s ↔ c ∈ s := by
  rw [utf8, List.mem_flatMap]
  constructor
  · rintro ⟨d, hd, hmem⟩
    by_cases hlt : d.toNat < 128
    · rw [utf8EncodeChar_ascii hlt, List.mem_singleton] at hmem
      have htoNat := congrArg UInt8.toNat hmem
      rw [toNat_byte hc, toNat_byte hlt] at htoNat
      exact Char.toNat_inj.mp htoNat ▸ hd
    · have hle := le_of_mem_utf8EncodeChar (Nat.not_lt.mp hlt) hmem
      rw [toNat_byte hc] at hle
      omega
  · intro h
    refine ⟨c, h, ?_⟩
    rw [utf8EncodeChar_ascii hc]
    exact List.mem_singleton_self _

/-- To replace ASCII characters by an ASCII character is to replace their bytes. -/
theorem map_utf8 {l : Str} (hl : IsAscii l) (hd : d.toNat < 128) (s : Str) :
    (utf8 s).map (fun b => if b ∈ utf8 l then byte d else b) =
      utf8 (s.map fun c => if c ∈ l then d else c) := by
  unfold utf8
  rw [List.map_flatMap, List.flatMap_map]
  refine List.flatMap_congr fun c _ => ?_
  change (String.utf8EncodeChar c).map (fun b => if b ∈ utf8 l then byte d else b) = _
  by_cases hc : c.toNat < 128
  · rw [utf8EncodeChar_ascii hc, List.map_singleton]
    by_cases hmem : c ∈ l
    · rw [if_pos ((mem_utf8 hc).mpr hmem), if_pos hmem, utf8EncodeChar_ascii hd]
    · rw [if_neg fun h => hmem ((mem_utf8 hc).mp h), if_neg hmem, utf8EncodeChar_ascii hc]
  · have hkept : ∀ b ∈ String.utf8EncodeChar c, b ∉ utf8 l := by
      intro b hb hmem
      have hle := le_of_mem_utf8EncodeChar (Nat.not_lt.mp hc) hb
      rw [utf8_ascii hl] at hmem
      obtain ⟨c', hc', rfl⟩ := List.mem_map.mp hmem
      rw [toNat_byte (hl c' hc')] at hle
      exact Nat.not_lt.mpr hle (hl c' hc')
    rw [if_neg fun hmem => hc (hl c hmem), List.map_congr_left fun b hb => if_neg (hkept b hb),
      List.map_id']

/-- What is joined in the string is joined in its encoding. -/
theorem utf8_intercalate (sep : Str) (l : List Str) :
    utf8 (sep.intercalate l) = (utf8 sep).intercalate (l.map utf8) := by
  induction l with
  | nil => rfl
  | cons s l ih =>
    cases l with
    | nil => rw [List.map_singleton, List.intercalate_singleton, List.intercalate_singleton]
    | cons t l =>
      rw [List.intercalate_cons_cons, utf8_append, utf8_append, ih, List.map_cons, List.map_cons,
        List.map_cons, List.intercalate_cons_cons]

end TrtShim.Str
