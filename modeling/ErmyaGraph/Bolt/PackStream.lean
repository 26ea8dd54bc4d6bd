import Mathlib.Tactic.IntervalCases
import ErmyaGraph.Lib.Bytes
import ErmyaGraph.Lib.Outcome

/-! # PackStream

The values of the Bolt protocol and their bytes. A value is a marker, a length where its kind
has one, and what it holds. A reader bounds how deep values are nested. -/

namespace ErmyaGraph.Bolt

variable {width : Nat}

open Bytes Outcome

namespace PackStream

/-- A value. A floating-point number is its bits. -/
inductive Value where
  | null
  | bool (b : Bool)
  | int (i : Int64)
  | float (bits : UInt64)
  | string (text : String)
  | bytes (data : List UInt8)
  | list (items : List Value)
  | dict (pairs : List (String × Value))
  | struct (tag : UInt8) (fields : List Value)

inductive ProtocolError where
  | packStreamUnderflow (needed available : Nat)
  | packStreamUnknownMarker (marker : UInt8)
  | packStreamInvalidUtf8
  | packStreamDictKeyNotString
  | packStreamDepthLimitExceeded (max : Nat)
  | packStreamInvalidFloat
  | boltNotAStruct
  | boltUnexpectedTag (expected got : UInt8)
  | boltMissingField (message field : String)
deriving DecidableEq

/-- A reader returns an error, or it stops at an index outside of its bytes. -/
inductive Failure where
  | error (e : ProtocolError)
  | panic
deriving DecidableEq

namespace Marker

def null : UInt8 := 0xC0
def boolFalse : UInt8 := 0xC2
def boolTrue : UInt8 := 0xC3
def float64 : UInt8 := 0xC1

def int8 : UInt8 := 0xC8
def int16 : UInt8 := 0xC9
def int32 : UInt8 := 0xCA
def int64 : UInt8 := 0xCB

def tinyStringBase : UInt8 := 0x80
def string8 : UInt8 := 0xD0
def string16 : UInt8 := 0xD1
def string32 : UInt8 := 0xD2

def bytes8 : UInt8 := 0xCC
def bytes16 : UInt8 := 0xCD
def bytes32 : UInt8 := 0xCE

def tinyListBase : UInt8 := 0x90
def list8 : UInt8 := 0xD4
def list16 : UInt8 := 0xD5
def list32 : UInt8 := 0xD6

def tinyDictBase : UInt8 := 0xA0
def dict8 : UInt8 := 0xD8
def dict16 : UInt8 := 0xD9
def dict32 : UInt8 := 0xDA

def tinyStructBase : UInt8 := 0xB0

end Marker

/-- The low bytes of an integer in two's complement, the highest first. -/
def intBytes (width : Nat) (i : Int) : List UInt8 := beBytes width (i % 256 ^ width).toNat

def encodeInt (i : Int64) : List UInt8 :=
  let n := i.toInt
  if -16 ≤ n ∧ n ≤ 127 then intBytes 1 n
  else if -128 ≤ n ∧ n ≤ -17 then Marker.int8 :: intBytes 1 n
  else if -32768 ≤ n ∧ n ≤ 32767 then Marker.int16 :: intBytes 2 n
  else if -2147483648 ≤ n ∧ n ≤ 2147483647 then Marker.int32 :: intBytes 4 n
  else Marker.int64 :: intBytes 8 n

def encodeSizedHeader (len : Nat) (tinyBase marker8 marker16 marker32 : UInt8) : List UInt8 :=
  if len ≤ 0x0F then [tinyBase ||| UInt8.ofNat len]
  else if len ≤ 0xFF then marker8 :: beBytes 1 len
  else if len ≤ 0xFFFF then marker16 :: beBytes 2 len
  else marker32 :: beBytes 4 len

def encodeString (text : String) : List UInt8 :=
  encodeSizedHeader (ofString text).length Marker.tinyStringBase Marker.string8 Marker.string16
    Marker.string32 ++ ofString text

def encodeBytes (data : List UInt8) : List UInt8 :=
  (if data.length ≤ 0xFF then Marker.bytes8 :: beBytes 1 data.length
  else if data.length ≤ 0xFFFF then Marker.bytes16 :: beBytes 2 data.length
  else Marker.bytes32 :: beBytes 4 data.length) ++ data

/-- The bits are those of a number: an exponent of ones is an infinity or no number at all. -/
def isFinite (bits : UInt64) : Prop := bits.toNat / 2 ^ 52 % 2 ^ 11 ≠ 2 ^ 11 - 1

instance (bits : UInt64) : Decidable (isFinite bits) := inferInstanceAs (Decidable (_ ≠ _))

mutual

/-- The bytes of a value. -/
def encode : Value → Except ProtocolError (List UInt8)
  | .null => .ok [Marker.null]
  | .bool true => .ok [Marker.boolTrue]
  | .bool false => .ok [Marker.boolFalse]
  | .int i => .ok (encodeInt i)
  | .float bits =>
    if isFinite bits then .ok (Marker.float64 :: beBytes 8 bits.toNat)
    else .error .packStreamInvalidFloat
  | .string text => .ok (encodeString text)
  | .bytes data => .ok (encodeBytes data)
  | .list items => do
      let body ← encodeItems items
      return encodeSizedHeader items.length Marker.tinyListBase Marker.list8 Marker.list16
        Marker.list32 ++ body
  | .dict pairs => do
      let body ← encodePairs pairs
      return encodeSizedHeader pairs.length Marker.tinyDictBase Marker.dict8 Marker.dict16
        Marker.dict32 ++ body
  -- A structure has a count of four bits. More fields are written behind a count of 15.
  | .struct tag fields => do
      let body ← encodeItems fields
      return (Marker.tinyStructBase ||| UInt8.ofNat (min fields.length 15)) :: tag :: body

def encodeItems : List Value → Except ProtocolError (List UInt8)
  | [] => .ok []
  | item :: items => do
      let first ← encode item
      let others ← encodeItems items
      return first ++ others

def encodePairs : List (String × Value) → Except ProtocolError (List UInt8)
  | [] => .ok []
  | (key, value) :: pairs => do
      let first ← encode value
      let others ← encodePairs pairs
      return encodeString key ++ first ++ others

end

def maxDecodeDepth : Nat := 64

def requireBytesFrom (buf : List UInt8) (offset needed : Nat) : Except Failure Unit :=
  if buf.length - offset < needed then
    .error (.error (.packStreamUnderflow needed (buf.length - offset)))
  else .ok ()

def slice (buf : List UInt8) (offset upto : Nat) : Except Failure (List UInt8) :=
  if upto ≤ buf.length then .ok (span buf offset upto) else .error .panic

/-- A big-endian number of `width` bytes. -/
def readNumber (buf : List UInt8) (start width : Nat) : Except Failure Nat := do
  requireBytesFrom buf start width
  let bytes ← slice buf start (start + width)
  return beNat bytes

def decodeStringBody (buf : List UInt8) (offset len : Nat) : Except Failure (Value × Nat) := do
  requireBytesFrom buf offset len
  let bytes ← slice buf offset (offset + len)
  match toString? bytes with
  | some text => return (.string text, offset + len)
  | none => .error (.error .packStreamInvalidUtf8)

def decodeBytesBody (buf : List UInt8) (offset len : Nat) : Except Failure (Value × Nat) := do
  requireBytesFrom buf offset len
  let bytes ← slice buf offset (offset + len)
  return (.bytes bytes, offset + len)

/-- An integer of `width` bytes in two's complement. -/
def decodeIntegerAt (buf : List UInt8) (start width : Nat) : Except Failure (Value × Nat) := do
  let n ← readNumber buf start width
  return (.int (Int64.ofInt (Int.bmod n (256 ^ width))), start + width)

section Bodies

-- How a value at an offset is read.
variable (decodeItem : Nat → Except Failure (Value × Nat))

def decodeItems : (count offset : Nat) → Except Failure (List Value × Nat)
  | 0, offset => .ok ([], offset)
  | count + 1, offset => do
      let (item, next) ← decodeItem offset
      let (items, last) ← decodeItems count next
      return (item :: items, last)

def decodePairs : (count offset : Nat) → Except Failure (List (String × Value) × Nat)
  | 0, offset => .ok ([], offset)
  | count + 1, offset => do
      let (keyVal, next) ← decodeItem offset
      match keyVal with
      | .string key => do
          let (value, next) ← decodeItem next
          let (pairs, last) ← decodePairs count next
          return ((key, value) :: pairs, last)
      | _ => .error (.error .packStreamDictKeyNotString)

end Bodies

section Dispatch

-- How a nested value is read, if the depth limit allows for one.
variable (inner : Option (Nat → Except Failure (Value × Nat)))

def depthLimitExceeded : Failure := .error (.packStreamDepthLimitExceeded maxDecodeDepth)

def decodeListBody (offset count : Nat) : Except Failure (Value × Nat) :=
  match inner with
  | none => .error depthLimitExceeded
  | some decodeItem => do
      let (items, next) ← decodeItems decodeItem count offset
      return (.list items, next)

def decodeDictBody (offset count : Nat) : Except Failure (Value × Nat) :=
  match inner with
  | none => .error depthLimitExceeded
  | some decodeItem => do
      let (pairs, next) ← decodePairs decodeItem count offset
      return (.dict pairs, next)

def decodeStructBody (offset : Nat) (tag : UInt8) (fieldCount : Nat) :
    Except Failure (Value × Nat) :=
  match inner with
  | none => .error depthLimitExceeded
  | some decodeItem => do
      let (fields, next) ← decodeItems decodeItem fieldCount offset
      return (.struct tag fields, next)

variable (buf : List UInt8)

def decodeStruct (start fieldCount : Nat) : Except Failure (Value × Nat) := do
  let tag ← readNumber buf start 1
  decodeStructBody inner (start + 1) (UInt8.ofNat tag) fieldCount

/-- What follows a length of `width` bytes. -/
def decodeSized (body : Nat → Nat → Except Failure (Value × Nat)) (start width : Nat) :
    Except Failure (Value × Nat) := do
  let len ← readNumber buf start width
  body (start + width) len

/-- What follows a marker. -/
def dispatch (marker : UInt8) (start : Nat) : Except Failure (Value × Nat) :=
  let low := (marker &&& 0x0F).toNat
  if marker ≤ 0x7F then .ok (.int (Int64.ofInt marker.toNat), start)
  else if marker ≤ 0x8F then decodeStringBody buf start low
  else if marker ≤ 0x9F then decodeListBody inner start low
  else if marker ≤ 0xAF then decodeDictBody inner start low
  else if marker ≤ 0xBF then decodeStruct inner buf start low
  else if marker = Marker.null then .ok (.null, start)
  else if marker = Marker.float64 then do
    let bits ← readNumber buf start 8
    return (.float (UInt64.ofNat bits), start + 8)
  else if marker = Marker.boolFalse then .ok (.bool false, start)
  else if marker = Marker.boolTrue then .ok (.bool true, start)
  else if marker = Marker.int8 then decodeIntegerAt buf start 1
  else if marker = Marker.int16 then decodeIntegerAt buf start 2
  else if marker = Marker.int32 then decodeIntegerAt buf start 4
  else if marker = Marker.int64 then decodeIntegerAt buf start 8
  else if marker = Marker.bytes8 then decodeSized buf (decodeBytesBody buf) start 1
  else if marker = Marker.bytes16 then decodeSized buf (decodeBytesBody buf) start 2
  else if marker = Marker.bytes32 then decodeSized buf (decodeBytesBody buf) start 4
  else if marker = Marker.string8 then decodeSized buf (decodeStringBody buf) start 1
  else if marker = Marker.string16 then decodeSized buf (decodeStringBody buf) start 2
  else if marker = Marker.string32 then decodeSized buf (decodeStringBody buf) start 4
  else if marker = Marker.list8 then decodeSized buf (decodeListBody inner) start 1
  else if marker = Marker.list16 then decodeSized buf (decodeListBody inner) start 2
  else if marker = Marker.list32 then decodeSized buf (decodeListBody inner) start 4
  else if marker = Marker.dict8 then decodeSized buf (decodeDictBody inner) start 1
  else if marker = Marker.dict16 then decodeSized buf (decodeDictBody inner) start 2
  else if marker = Marker.dict32 then decodeSized buf (decodeDictBody inner) start 4
  else if 0xF0 ≤ marker then .ok (.int (Int64.ofInt (Int.bmod marker.toNat 256)), start)
  else .error (.error (.packStreamUnknownMarker marker))

def decodeMarked (offset : Nat) : Except Failure (Value × Nat) := do
  let marker ← readNumber buf offset 1
  dispatch inner buf (UInt8.ofNat marker) (offset + 1)

end Dispatch

/-- The value at an offset, where `levels` more levels of nesting are allowed. -/
def decodeAt (buf : List UInt8) : (levels : Nat) → Nat → Except Failure (Value × Nat)
  | 0 => decodeMarked none buf
  | levels + 1 => decodeMarked (some (decodeAt buf levels)) buf

/-- The value at the front of the bytes, and how many bytes it has. -/
def decode (buf : List UInt8) : Except Failure (Value × Nat) := do
  requireBytesFrom buf 0 1
  decodeAt buf maxDecodeDepth 0

/-- A reader does not read outside of the bytes, and ends inside of them behind an offset. -/
structure Inside {α : Type} (buf : List UInt8) (offset : Nat) (read : Except Failure (α × Nat)) :
    Prop where
  noPanic : read ≠ .error .panic
  bounds : ∀ a next, read = .ok (a, next) → offset ≤ next ∧ next ≤ buf.length

section Inside

variable {α β : Type} {buf : List UInt8} {offset start : Nat}

theorem inside_ok (a : α) {next : Nat} (from_ : offset ≤ next) (upto : next ≤ buf.length) :
    Inside buf offset (.ok (a, next) : Except Failure (α × Nat)) :=
  ⟨nofun, fun _ _ ok => by cases ok; exact ⟨from_, upto⟩⟩

theorem inside_error (e : ProtocolError) :
    Inside buf offset (.error (.error e) : Except Failure (α × Nat)) :=
  ⟨nofun, nofun⟩

variable {x : Except Failure (α × Nat)}

theorem inside_ite {p : Prop} [Decidable p] {y : Except Failure (α × Nat)}
    (onTrue : Inside buf offset x) (onFalse : Inside buf offset y) :
    Inside buf offset (if p then x else y) := by
  split
  · exact onTrue
  · exact onFalse

theorem Inside.bind {f : α × Nat → Except Failure (β × Nat)} (first : Inside buf offset x)
    (rest : ∀ a next, offset ≤ next → next ≤ buf.length → Inside buf next (f (a, next))) :
    Inside buf offset (x >>= f) := by
  cases x with
  | error e =>
    refine ⟨?_, nofun⟩
    intro panic
    exact first.noPanic (congrArg Except.error (Except.error.inj panic))
  | ok a =>
    obtain ⟨from_, upto⟩ := first.bounds a.1 a.2 rfl
    have later := rest a.1 a.2 from_ upto
    refine ⟨later.noPanic, fun b next ok => ?_⟩
    obtain ⟨further, inside⟩ := later.bounds b next ok
    exact ⟨from_.trans further, inside⟩

theorem Inside.mono {before : Nat} (inside : Inside buf offset x) (earlier : before ≤ offset) :
    Inside buf before x :=
  ⟨inside.noPanic, fun a next ok =>
    ⟨earlier.trans (inside.bounds a next ok).1, (inside.bounds a next ok).2⟩⟩

theorem readNumber_ok (room : start + width ≤ buf.length) :
    readNumber buf start width = .ok (beNat (span buf start (start + width))) := by
  rw [readNumber, requireBytesFrom, if_neg (by omega)]
  simp only [bind, Except.bind, slice, if_pos room]
  rfl

theorem readNumber_short (pos : 0 < width) (short : buf.length < start + width) :
    readNumber buf start width =
      .error (.error (.packStreamUnderflow width (buf.length - start))) := by
  rw [readNumber, requireBytesFrom, if_pos (by omega)]
  rfl

theorem inside_readNumber (pos : 0 < width) {rest : Nat → Except Failure (α × Nat)}
    (later : ∀ n, start + width ≤ buf.length → Inside buf (start + width) (rest n)) :
    Inside buf (start + width) (readNumber buf start width >>= rest) := by
  by_cases room : start + width ≤ buf.length
  · rw [readNumber_ok room]
    exact later _ room
  · rw [readNumber_short pos (not_le.mp room)]
    exact inside_error _

variable (len : Nat)

theorem inside_body {rest : List UInt8 → Except Failure (α × Nat)}
    (later : ∀ bytes, offset + len ≤ buf.length → Inside buf offset (rest bytes))
    (within : offset ≤ buf.length) :
    Inside buf offset (do
      requireBytesFrom buf offset len
      let bytes ← slice buf offset (offset + len)
      rest bytes) := by
  by_cases room : offset + len ≤ buf.length
  · rw [requireBytesFrom, if_neg (by omega)]
    simp only [bind, Except.bind, slice, if_pos room]
    exact later _ room
  · rw [requireBytesFrom, if_pos (by omega)]
    exact inside_error _

theorem inside_stringBody (within : offset ≤ buf.length) :
    Inside buf offset (decodeStringBody buf offset len) := by
  refine inside_body len ?_ within
  intro bytes room
  split
  · exact inside_ok _ (Nat.le_add_right _ _) room
  · exact inside_error _

theorem inside_bytesBody (within : offset ≤ buf.length) :
    Inside buf offset (decodeBytesBody buf offset len) :=
  inside_body len (fun _ room => inside_ok _ (Nat.le_add_right _ _) room) within

section Nested

variable {decodeItem : Nat → Except Failure (Value × Nat)}

theorem inside_items (item : ∀ at_ ≤ buf.length, Inside buf at_ (decodeItem at_)) (count : Nat)
    (within : offset ≤ buf.length) : Inside buf offset (decodeItems decodeItem count offset) := by
  induction count generalizing offset with
  | zero => exact inside_ok _ (le_rfl) within
  | succ count ih =>
    refine (item offset within).bind ?_
    intro first next _ inside
    refine (ih inside).bind ?_
    intro others last _ inside
    exact inside_ok _ (le_rfl) inside

theorem inside_pairs (item : ∀ at_ ≤ buf.length, Inside buf at_ (decodeItem at_)) (count : Nat)
    (within : offset ≤ buf.length) : Inside buf offset (decodePairs decodeItem count offset) := by
  induction count generalizing offset with
  | zero => exact inside_ok _ (le_rfl) within
  | succ count ih =>
    refine (item offset within).bind ?_
    intro key next _ inside
    cases key with
    | string key =>
      refine (item next inside).bind ?_
      intro value next _ inside
      refine (ih inside).bind ?_
      intro others last _ inside
      exact inside_ok _ (le_rfl) inside
    | null => exact inside_error _
    | bool _ => exact inside_error _
    | int _ => exact inside_error _
    | float _ => exact inside_error _
    | bytes _ => exact inside_error _
    | list _ => exact inside_error _
    | dict _ => exact inside_error _
    | struct _ _ => exact inside_error _

end Nested

section Dispatch

variable {inner : Option (Nat → Except Failure (Value × Nat))}

def InsideInner (buf : List UInt8) (inner : Option (Nat → Except Failure (Value × Nat))) : Prop :=
  ∀ decodeItem ∈ inner, ∀ at_ ≤ buf.length, Inside buf at_ (decodeItem at_)

theorem inside_listBody (nested : InsideInner buf inner) (count : Nat)
    (within : offset ≤ buf.length) : Inside buf offset (decodeListBody inner offset count) := by
  cases inner with
  | none => exact inside_error _
  | some decodeItem =>
    refine (inside_items (nested decodeItem rfl) count within).bind ?_
    intro items next _ inside
    exact inside_ok _ (le_rfl) inside

theorem inside_dictBody (nested : InsideInner buf inner) (count : Nat)
    (within : offset ≤ buf.length) : Inside buf offset (decodeDictBody inner offset count) := by
  cases inner with
  | none => exact inside_error _
  | some decodeItem =>
    refine (inside_pairs (nested decodeItem rfl) count within).bind ?_
    intro pairs next _ inside
    exact inside_ok _ (le_rfl) inside

theorem inside_struct (nested : InsideInner buf inner) (fieldCount : Nat) :
    Inside buf start (decodeStruct inner buf start fieldCount) := by
  refine (inside_readNumber Nat.one_pos ?_).mono (Nat.le_add_right start 1)
  intro tag within
  cases inner with
  | none => exact inside_error _
  | some decodeItem =>
    refine (inside_items (nested decodeItem rfl) fieldCount within).bind ?_
    intro fields next _ inside
    exact inside_ok _ (le_rfl) inside

theorem inside_sized {body : Nat → Nat → Except Failure (Value × Nat)} (pos : 0 < width)
    (later : ∀ at_ len, at_ ≤ buf.length → Inside buf at_ (body at_ len)) :
    Inside buf start (decodeSized buf body start width) := by
  refine (inside_readNumber pos ?_).mono (Nat.le_add_right start width)
  intro len within
  exact later _ len within

theorem inside_integer (pos : 0 < width) :
    Inside buf start (decodeIntegerAt buf start width) := by
  refine (inside_readNumber pos ?_).mono (Nat.le_add_right start width)
  intro n within
  exact inside_ok _ (le_rfl) within

theorem inside_dispatch (nested : InsideInner buf inner) (marker : UInt8)
    (within : start ≤ buf.length) : Inside buf start (dispatch inner buf marker start) := by
  have one : 0 < 1 := by decide
  have two : 0 < 2 := by decide
  have four : 0 < 4 := by decide
  have eight : 0 < 8 := by decide
  have value : ∀ v : Value, Inside buf start (.ok (v, start)) :=
    fun v => inside_ok v (le_rfl) within
  have strings := fun at_ len inside => @inside_stringBody buf at_ len inside
  have texts := fun at_ len inside => @inside_bytesBody buf at_ len inside
  have lists := fun at_ len inside => @inside_listBody buf at_ inner nested len inside
  have dicts := fun at_ len inside => @inside_dictBody buf at_ inner nested len inside
  unfold dispatch
  refine inside_ite (value _) ?_
  refine inside_ite (strings _ _ within) ?_
  refine inside_ite (lists _ _ within) ?_
  refine inside_ite (dicts _ _ within) ?_
  refine inside_ite (inside_struct nested _) ?_
  refine inside_ite (value _) ?_
  refine inside_ite ?_ ?_
  · refine (inside_readNumber eight ?_).mono (Nat.le_add_right start 8)
    intro bits inside
    exact inside_ok _ (le_rfl) inside
  refine inside_ite (value _) ?_
  refine inside_ite (value _) ?_
  refine inside_ite (inside_integer one) ?_
  refine inside_ite (inside_integer two) ?_
  refine inside_ite (inside_integer four) ?_
  refine inside_ite (inside_integer eight) ?_
  refine inside_ite (inside_sized one texts) ?_
  refine inside_ite (inside_sized two texts) ?_
  refine inside_ite (inside_sized four texts) ?_
  refine inside_ite (inside_sized one strings) ?_
  refine inside_ite (inside_sized two strings) ?_
  refine inside_ite (inside_sized four strings) ?_
  refine inside_ite (inside_sized one lists) ?_
  refine inside_ite (inside_sized two lists) ?_
  refine inside_ite (inside_sized four lists) ?_
  refine inside_ite (inside_sized one dicts) ?_
  refine inside_ite (inside_sized two dicts) ?_
  refine inside_ite (inside_sized four dicts) ?_
  exact inside_ite (value _) (inside_error _)

theorem inside_marked (nested : InsideInner buf inner) :
    Inside buf (start + 1) (decodeMarked inner buf start) :=
  inside_readNumber Nat.one_pos fun _ within => inside_dispatch nested _ within

end Dispatch

theorem inside_decodeAt (buf : List UInt8) (levels : Nat) :
    ∀ offset, Inside buf (offset + 1) (decodeAt buf levels offset) := by
  induction levels with
  | zero =>
    intro offset
    exact inside_marked nofun
  | succ levels ih =>
    intro offset
    refine inside_marked ?_
    intro decodeItem mem at_ _
    cases mem
    exact (ih at_).mono (Nat.le_succ at_)

theorem decode_inside (buf : List UInt8) : Inside buf 1 (decode buf) := by
  rw [decode, requireBytesFrom]
  split
  · exact inside_error _
  · exact inside_decodeAt buf maxDecodeDepth 0

end Inside

end PackStream

end ErmyaGraph.Bolt
