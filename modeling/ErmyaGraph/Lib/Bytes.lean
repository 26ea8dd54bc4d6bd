import Mathlib.Algebra.Order.Ring.Int
import Mathlib.Data.List.Basic

/-! # Byte strings

Little-endian integers and UTF-8 text as lists of bytes. -/

namespace Bytes

open List

/-- The `width` low bytes of a number, least significant first. -/
def leBytes : (width : Nat) → Nat → List UInt8
  | 0, _ => []
  | width + 1, n => UInt8.ofNat (n % 256) :: leBytes width (n / 256)

def leNat : List UInt8 → Nat
  | [] => 0
  | byte :: rest => byte.toNat + 256 * leNat rest

@[simp]
theorem length_leBytes (width n : Nat) : (leBytes width n).length = width := by
  induction width generalizing n with
  | zero => rfl
  | succ width ih => simp [leBytes, ih]

theorem leNat_leBytes {width n : Nat} (fits : n < 256 ^ width) : leNat (leBytes width n) = n := by
  induction width generalizing n with
  | zero =>
    have zero : n = 0 := by simpa using fits
    simp [leBytes, leNat, zero]
  | succ width ih =>
    have quotient : n / 256 < 256 ^ width := by
      apply Nat.div_lt_of_lt_mul
      calc n < 256 ^ (width + 1) := fits
        _ = 256 * 256 ^ width := by rw [Nat.pow_succ, Nat.mul_comm]
    have low : (UInt8.ofNat (n % 256)).toNat = n % 256 := by
      simp [UInt8.toNat_ofNat']
    simp only [leBytes, leNat, low, ih quotient]
    omega

theorem leNat_lt (bytes : List UInt8) : leNat bytes < 256 ^ bytes.length := by
  induction bytes with
  | nil => exact Nat.one_pos
  | cons byte rest ih =>
    have small : byte.toNat < 256 := byte.toNat_lt
    rw [leNat, length_cons, Nat.pow_succ]
    omega

theorem leNat_append (front back : List UInt8) :
    leNat (front ++ back) = leNat front + 256 ^ front.length * leNat back := by
  induction front with
  | nil => simp [leNat]
  | cons byte front ih =>
    rw [cons_append, leNat, ih, leNat, length_cons, Nat.pow_succ, Nat.mul_add,
      Nat.mul_comm (256 ^ front.length) 256, Nat.mul_assoc]
    omega

/-- The `width` low bytes of a number, most significant first. -/
def beBytes (width n : Nat) : List UInt8 := (leBytes width n).reverse

def beNat (bytes : List UInt8) : Nat := leNat bytes.reverse

@[simp]
theorem length_beBytes (width n : Nat) : (beBytes width n).length = width := by
  rw [beBytes, length_reverse, length_leBytes]

theorem beNat_beBytes {width n : Nat} (fits : n < 256 ^ width) : beNat (beBytes width n) = n := by
  rw [beNat, beBytes, reverse_reverse, leNat_leBytes fits]

def span (bytes : List UInt8) (from_ upto : Nat) : List UInt8 := (bytes.take upto).drop from_

theorem span_append {from_ upto : Nat} (front mid back : List UInt8) (starts : front.length = from_)
    (ends : from_ + mid.length = upto) : span (front ++ (mid ++ back)) from_ upto = mid := by
  have cut : upto = front.length + mid.length := by omega
  rw [span, cut, ← starts, ← append_assoc, ← length_append, take_left, drop_left]

def u64 (bytes : List UInt8) : UInt64 := UInt64.ofNat (leNat bytes)

def u32 (bytes : List UInt8) : UInt32 := UInt32.ofNat (leNat bytes)

@[simp]
theorem u64_leBytes (n : UInt64) : u64 (leBytes 8 n.toNat) = n := by
  rw [u64, leNat_leBytes n.toNat_lt, UInt64.ofNat_toNat]

@[simp]
theorem u32_leBytes (n : UInt32) : u32 (leBytes 4 n.toNat) = n := by
  rw [u32, leNat_leBytes n.toNat_lt, UInt32.ofNat_toNat]

def ofString (text : String) : List UInt8 := text.toUTF8.data.toList

/-- The text a byte string encodes, if it is valid UTF-8. -/
def toString? (bytes : List UInt8) : Option String := String.fromUTF8? ⟨bytes.toArray⟩

@[simp]
theorem toString?_ofString (text : String) : toString? (ofString text) = some text := by
  have valid : text.toByteArray.IsValidUTF8 := text.isValidUTF8
  simp [toString?, ofString, String.fromUTF8?, String.fromUTF8, valid]

theorem ofString_of_toString? {bytes : List UInt8} {text : String}
    (found : toString? bytes = some text) : ofString text = bytes := by
  unfold toString? String.fromUTF8? at found
  split at found
  · cases found
    rfl
  · cases found

theorem ofString_injective : Function.Injective ofString := by
  intro left right same
  have read := toString?_ofString left
  rw [same, toString?_ofString] at read
  exact (Option.some.inj read).symm

@[simp]
theorem length_ofString (text : String) : (ofString text).length = text.utf8ByteSize := rfl

end Bytes
