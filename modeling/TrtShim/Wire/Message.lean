import Mathlib.Data.List.Basic
import TrtShim.Bytes.Words

/-! # Protocol buffer messages on the wire

A message is a list of fields. A field has a tag with its number and wire type,
followed by a varint, eight or four bytes, or a length and that many bytes.
Varints may be longer than necessary, up to ten bytes.
-/

namespace TrtShim.Wire

/-- Bytes with their high bits set, and a last byte without it. -/
inductive IsVarint : Bytes → Prop where
  | last {b : UInt8} (h : b < 128) : IsVarint [b]
  | more {b : UInt8} {bs : Bytes} (h : 128 ≤ b) (hbs : IsVarint bs) : IsVarint (b :: bs)

/-- The number that groups of seven bits denote, least significant group first. -/
def groups : Bytes → ℕ
  | [] => 0
  | b :: bs => b.toNat % 128 + 128 * groups bs

/-- A form of a 64-bit number as a varint. -/
structure Varint where
  bytes : Bytes
  isVarint : IsVarint bytes
  length_le : bytes.length ≤ 10

/-- The number that a varint stands for; groups beyond 64 bits are dropped. -/
def Varint.value (v : Varint) : UInt64 := UInt64.ofNat (groups v.bytes)

/-- What follows the tag of a field. -/
inductive Payload where
  | varint (v : Varint)
  | fixed64 (bytes : Bytes) (h : bytes.length = 8)
  | lengthDelimited (len : Varint) (bytes : Bytes) (h : len.value.toNat = bytes.length)
  | fixed32 (bytes : Bytes) (h : bytes.length = 4)

namespace Payload

def wireType : Payload → ℕ
  | varint _ => 0
  | fixed64 _ _ => 1
  | lengthDelimited _ _ _ => 2
  | fixed32 _ _ => 5

def encode : Payload → Bytes
  | varint v => v.bytes
  | fixed64 bytes _ => bytes
  | lengthDelimited len bytes _ => len.bytes ++ bytes
  | fixed32 bytes _ => bytes

end Payload

/-- A field of a message. -/
structure Field where
  number : ℕ
  number_lt : number < 2 ^ 29
  payload : Payload
  tag : Varint
  tag_eq : tag.value.toNat = 8 * number + payload.wireType

def Field.encode (f : Field) : Bytes := f.tag.bytes ++ f.payload.encode

/-- The bytes of the field if it is length-delimited and has this number. -/
def Field.delimited (n : ℕ) (f : Field) : Option Bytes :=
  match f.payload with
  | .lengthDelimited _ bytes _ => if f.number = n then some bytes else none
  | _ => none

abbrev Message := List Field

namespace Message

def encode (msg : Message) : Bytes := msg.flatMap Field.encode

/-- The bytes of the length-delimited fields with this number, in order. -/
def delimited (n : ℕ) (msg : Message) : List Bytes := msg.filterMap (Field.delimited n)

end Message

/-- A number below 128 in one byte. -/
def Varint.short (n : ℕ) (h : n < 128) : Varint where
  bytes := [UInt8.ofNat n]
  isVarint := .last (by
    rw [UInt8.lt_iff_toNat_lt, UInt8.toNat_ofNat', Nat.mod_eq_of_lt (by omega)]
    exact h)
  length_le := by simp

theorem Varint.toNat_value_short {n : ℕ} (h : n < 128) : (short n h).value.toNat = n := by
  simp only [value, short, groups, UInt8.toNat_ofNat', UInt64.toNat_ofNat']
  omega

/-- A length-delimited field whose tag and length take one byte each. -/
def Field.short (number : ℕ) (hn : number < 16) (bytes : Bytes) (hb : bytes.length < 128) :
    Field where
  number := number
  number_lt := by omega
  payload := .lengthDelimited (.short bytes.length hb) bytes (Varint.toNat_value_short hb)
  tag := .short (8 * number + 2) (by omega)
  tag_eq := Varint.toNat_value_short _

theorem IsVarint.ne_nil {bs : Bytes} (h : IsVarint bs) : bs ≠ [] := by
  cases h <;> simp

theorem Field.wireType_lt (f : Field) : f.payload.wireType < 8 := by
  cases f.payload <;> simp [Payload.wireType]

end TrtShim.Wire
