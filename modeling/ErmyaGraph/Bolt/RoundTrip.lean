import ErmyaGraph.Bolt.PackStream

/-! # Reading back a value

Reader and writer choose the same marker for every length and every integer, so a value that
is not nested too deep is read back from its bytes. -/

namespace ErmyaGraph.Bolt

variable {width start : Nat} {buf before rest : List UInt8} {i : Int64}

open Bytes Outcome List

namespace PackStream

mutual

/-- The structures of a value have at most 15 fields, its numbers are finite, and its lengths
have 32 bits. -/
def Sound : Value → Prop
  | .null => True
  | .bool _ => True
  | .int _ => True
  | .float bits => isFinite bits
  | .string text => (ofString text).length < 2 ^ 32
  | .bytes data => data.length < 2 ^ 32
  | .list items => items.length < 2 ^ 32 ∧ SoundItems items
  | .dict pairs => pairs.length < 2 ^ 32 ∧ SoundPairs pairs
  | .struct _ fields => fields.length ≤ 15 ∧ SoundItems fields

def SoundItems : List Value → Prop
  | [] => True
  | item :: items => Sound item ∧ SoundItems items

def SoundPairs : List (String × Value) → Prop
  | [] => True
  | (key, value) :: pairs => (ofString key).length < 2 ^ 32 ∧ Sound value ∧ SoundPairs pairs

end

mutual

/-- How many lists, dictionaries and structures are inside each other. -/
def nesting : Value → Nat
  | .null => 0
  | .bool _ => 0
  | .int _ => 0
  | .float _ => 0
  | .string _ => 0
  | .bytes _ => 0
  | .list items => nestingItems items + 1
  | .dict pairs => nestingPairs pairs + 1
  | .struct _ fields => nestingItems fields + 1

def nestingItems : List Value → Nat
  | [] => 0
  | item :: items => max (nesting item) (nestingItems items)

def nestingPairs : List (String × Value) → Nat
  | [] => 0
  | (_, value) :: pairs => max (nesting value) (nestingPairs pairs)

end

section Headers

variable {inner : Option (Nat → Except Failure (Value × Nat))}

theorem readNumber_at {n : Nat} (fits : n < 256 ^ width)
    (whole : buf = before ++ (beBytes width n ++ rest)) (starts : before.length = start) :
    readNumber buf start width = .ok n := by
  have room : start + width ≤ buf.length := by
    rw [whole, length_append, length_append, length_beBytes]
    omega
  rw [readNumber_ok room, whole, span_append before _ rest starts (by rw [length_beBytes]),
    beNat_beBytes fits]

theorem decodeMarked_at {marker : UInt8} (whole : buf = before ++ marker :: rest) :
    decodeMarked inner buf before.length = dispatch inner buf marker (before.length + 1) := by
  have one : beBytes 1 marker.toNat = [marker] := by
    rw [beBytes, leBytes, leBytes, Nat.mod_eq_of_lt marker.toNat_lt, UInt8.ofNat_toNat]
    rfl
  have bytes : buf = before ++ (beBytes 1 marker.toNat ++ rest) := by
    rw [one]
    exact whole
  rw [decodeMarked, readNumber_at marker.toNat_lt bytes rfl]
  simp only [bind, Except.bind, UInt8.ofNat_toNat]

theorem bmod_intBytes {i : Int} (low : -(256 ^ width : Nat) ≤ 2 * i)
    (high : 2 * i < (256 ^ width : Nat)) :
    (i % 256 ^ width).toNat < 256 ^ width ∧
      Int.bmod ((i % 256 ^ width).toNat : Nat) (256 ^ width) = i := by
  have cast : (256 ^ width : Int) = ((256 ^ width : Nat) : Int) := (Int.natCast_pow 256 width).symm
  have pos : 0 < 256 ^ width := Nat.pow_pos (by decide)
  rw [cast]
  generalize 256 ^ width = m at *
  have nonneg := Int.emod_nonneg i (b := m) (by omega)
  have small := Int.emod_lt_of_pos i (b := m) (by omega)
  refine ⟨by omega, ?_⟩
  rw [Int.toNat_of_nonneg nonneg, Int.emod_bmod]
  apply Int.bmod_eq_of_le <;> omega

variable {len : Nat}

theorem tiny_marker (short : len ≤ 0x0F) (start : Nat) (buf : List UInt8) :
    dispatch inner buf (Marker.tinyStringBase ||| UInt8.ofNat len) start =
        decodeStringBody buf start len ∧
      dispatch inner buf (Marker.tinyListBase ||| UInt8.ofNat len) start =
        decodeListBody inner start len ∧
      dispatch inner buf (Marker.tinyDictBase ||| UInt8.ofNat len) start =
        decodeDictBody inner start len ∧
      dispatch inner buf (Marker.tinyStructBase ||| UInt8.ofNat len) start =
        decodeStruct inner buf start len := by
  interval_cases len <;> exact ⟨rfl, rfl, rfl, rfl⟩

/-- The kinds of values with a short form of their length. -/
inductive Family where
  | strings
  | lists
  | dicts

namespace Family

def header (len : Nat) : Family → List UInt8
  | .strings => encodeSizedHeader len Marker.tinyStringBase Marker.string8 Marker.string16
      Marker.string32
  | .lists => encodeSizedHeader len Marker.tinyListBase Marker.list8 Marker.list16 Marker.list32
  | .dicts => encodeSizedHeader len Marker.tinyDictBase Marker.dict8 Marker.dict16 Marker.dict32

def body (inner : Option (Nat → Except Failure (Value × Nat))) (buf : List UInt8) :
    Family → Nat → Nat → Except Failure (Value × Nat)
  | .strings => decodeStringBody buf
  | .lists => decodeListBody inner
  | .dicts => decodeDictBody inner

end Family

theorem decodeSized_at {body : Nat → Nat → Except Failure (Value × Nat)} (fits : len < 256 ^ width)
    (whole : buf = before ++ (beBytes width len ++ rest)) (starts : before.length = start) :
    decodeSized buf body start width = body (start + width) len := by
  rw [decodeSized, readNumber_at fits whole starts]
  rfl

/-- Reader and writer agree on the headers of strings, lists and dictionaries. -/
theorem decodeMarked_header (family : Family) (fits : len < 2 ^ 32)
    (whole : buf = before ++ (family.header len ++ rest)) :
    decodeMarked inner buf before.length =
      family.body inner buf (before.length + (family.header len).length) len := by
  -- Behind a marker and a length in `width` bytes.
  have sized : ∀ (marker : UInt8) (width : Nat), len < 256 ^ width →
      family.header len = marker :: beBytes width len →
      (∀ start, dispatch inner buf marker start =
        decodeSized buf (family.body inner buf) start width) →
      decodeMarked inner buf before.length =
        family.body inner buf (before.length + (family.header len).length) len := by
    intro marker width small form reads
    have split_ : buf = (before ++ [marker]) ++ (beBytes width len ++ rest) := by
      rw [whole, form]
      simp only [append_assoc, cons_append, nil_append]
    have marked : buf = before ++ marker :: (beBytes width len ++ rest) := by
      rw [whole, form]
      rfl
    rw [decodeMarked_at marked, reads,
      decodeSized_at small split_ (by rw [length_append, length_singleton]), form, length_cons, length_beBytes]
    congr 1
    omega
  by_cases tiny : len ≤ 0x0F
  · obtain ⟨strings, lists, dicts, _⟩ := @tiny_marker inner len tiny (before.length + 1) buf
    cases family with
    | strings =>
      simp only [Family.header, encodeSizedHeader, if_pos tiny] at whole ⊢
      rw [decodeMarked_at whole, strings]
      rfl
    | lists =>
      simp only [Family.header, encodeSizedHeader, if_pos tiny] at whole ⊢
      rw [decodeMarked_at whole, lists]
      rfl
    | dicts =>
      simp only [Family.header, encodeSizedHeader, if_pos tiny] at whole ⊢
      rw [decodeMarked_at whole, dicts]
      rfl
  · by_cases byte : len ≤ 0xFF
    · have form : ∀ a b c d, encodeSizedHeader len a b c d = b :: beBytes 1 len := by
        intro a b c d
        rw [encodeSizedHeader, if_neg tiny, if_pos byte]
      cases family with
      | strings => exact sized Marker.string8 1 (by omega) (form _ _ _ _) fun _ => rfl
      | lists => exact sized Marker.list8 1 (by omega) (form _ _ _ _) fun _ => rfl
      | dicts => exact sized Marker.dict8 1 (by omega) (form _ _ _ _) fun _ => rfl
    · by_cases word : len ≤ 0xFFFF
      · have form : ∀ a b c d, encodeSizedHeader len a b c d = c :: beBytes 2 len := by
          intro a b c d
          rw [encodeSizedHeader, if_neg tiny, if_neg byte, if_pos word]
        cases family with
        | strings => exact sized Marker.string16 2 (by omega) (form _ _ _ _) fun _ => rfl
        | lists => exact sized Marker.list16 2 (by omega) (form _ _ _ _) fun _ => rfl
        | dicts => exact sized Marker.dict16 2 (by omega) (form _ _ _ _) fun _ => rfl
      · have form : ∀ a b c d, encodeSizedHeader len a b c d = d :: beBytes 4 len := by
          intro a b c d
          rw [encodeSizedHeader, if_neg tiny, if_neg byte, if_neg word]
        cases family with
        | strings => exact sized Marker.string32 4 (by omega) (form _ _ _ _) fun _ => rfl
        | lists => exact sized Marker.list32 4 (by omega) (form _ _ _ _) fun _ => rfl
        | dicts => exact sized Marker.dict32 4 (by omega) (form _ _ _ _) fun _ => rfl

theorem decodeStringBody_at {text : String} (whole : buf = before ++ (ofString text ++ rest))
    (starts : before.length = start) :
    decodeStringBody buf start (ofString text).length =
      .ok (.string text, start + (ofString text).length) := by
  have room : start + (ofString text).length ≤ buf.length := by
    rw [whole, length_append, length_append]
    omega
  have read : span buf start (start + (ofString text).length) = ofString text := by
    rw [whole]
    exact span_append before _ rest starts rfl
  rw [decodeStringBody, requireBytesFrom, if_neg (by omega)]
  simp only [bind, Except.bind, slice, if_pos room, read, toString?_ofString]
  rfl

variable {data : List UInt8}

theorem decodeBytesBody_at (whole : buf = before ++ (data ++ rest))
    (starts : before.length = start) :
    decodeBytesBody buf start data.length = .ok (.bytes data, start + data.length) := by
  have room : start + data.length ≤ buf.length := by
    rw [whole, length_append, length_append]
    omega
  have read : span buf start (start + data.length) = data := by
    rw [whole]
    exact span_append before _ rest starts rfl
  rw [decodeBytesBody, requireBytesFrom, if_neg (by omega)]
  simp only [bind, Except.bind, slice, if_pos room, read]
  rfl

theorem decodeMarked_string {text : String} (fits : (ofString text).length < 2 ^ 32)
    (whole : buf = before ++ (encodeString text ++ rest)) :
    decodeMarked inner buf before.length =
      .ok (.string text, before.length + (encodeString text).length) := by
  have form : encodeString text = Family.strings.header (ofString text).length ++ ofString text :=
    rfl
  rw [form, append_assoc] at whole
  have split_ : buf = (before ++ Family.strings.header (ofString text).length) ++
      (ofString text ++ rest) := by
    rw [whole, append_assoc]
  rw [decodeMarked_header .strings fits whole, form, length_append, ← add_assoc]
  exact decodeStringBody_at split_ (length_append ..)

theorem decodeMarked_bytes (fits : data.length < 2 ^ 32)
    (whole : buf = before ++ (encodeBytes data ++ rest)) :
    decodeMarked inner buf before.length =
      .ok (.bytes data, before.length + (encodeBytes data).length) := by
  have sized : ∀ (marker : UInt8) (width : Nat), data.length < 256 ^ width →
      encodeBytes data = marker :: beBytes width data.length ++ data →
      (∀ start, dispatch inner buf marker start =
        decodeSized buf (decodeBytesBody buf) start width) →
      decodeMarked inner buf before.length =
        .ok (.bytes data, before.length + (encodeBytes data).length) := by
    intro marker width small form reads
    rw [form] at whole
    have first : buf = (before ++ [marker]) ++ (beBytes width data.length ++ (data ++ rest)) := by
      rw [whole]
      simp only [append_assoc, cons_append, nil_append]
    have second : buf = ((before ++ [marker]) ++ beBytes width data.length) ++ (data ++ rest) := by
      rw [first]
      simp only [append_assoc]
    have marked : buf = before ++ marker :: (beBytes width data.length ++ data ++ rest) := by
      rw [whole]
      rfl
    rw [decodeMarked_at marked, reads,
      decodeSized_at small first (by rw [length_append, length_singleton]), decodeBytesBody_at second (by
        simp only [length_append, length_singleton, length_beBytes]), form]
    simp only [length_append, length_cons, length_beBytes]
    congr 2
    omega
  by_cases byte : data.length ≤ 0xFF
  · refine sized Marker.bytes8 1 (by omega) ?_ fun _ => rfl
    rw [encodeBytes, if_pos byte]
  · by_cases word : data.length ≤ 0xFFFF
    · refine sized Marker.bytes16 2 (by omega) ?_ fun _ => rfl
      rw [encodeBytes, if_neg byte, if_pos word]
    · refine sized Marker.bytes32 4 (by omega) ?_ fun _ => rfl
      rw [encodeBytes, if_neg byte, if_neg word]

theorem decodeIntegerAt_at (low : -(256 ^ width : Nat) ≤ 2 * i.toInt)
    (high : 2 * i.toInt < (256 ^ width : Nat))
    (whole : buf = before ++ (intBytes width i.toInt ++ rest)) (starts : before.length = start) :
    decodeIntegerAt buf start width = .ok (.int i, start + width) := by
  obtain ⟨fits, value⟩ := bmod_intBytes low high
  rw [decodeIntegerAt, readNumber_at fits whole starts]
  simp only [bind, Except.bind]
  rw [value, Int64.ofInt_toInt]
  rfl

theorem dispatch_negative {k : Nat} (small : k < 16) (buf : List UInt8) (start : Nat) :
    dispatch inner buf (UInt8.ofNat (240 + k)) start =
      .ok (.int (Int64.ofInt (Int.bmod (UInt8.ofNat (240 + k)).toNat 256)), start) := by
  interval_cases k <;> rfl

theorem dispatch_tinyInt (low : -16 ≤ i.toInt) (high : i.toInt ≤ 127) (buf : List UInt8)
    (start : Nat) :
    dispatch inner buf (UInt8.ofNat (i.toInt % 256).toNat) start = .ok (.int i, start) := by
  by_cases negative : i.toInt < 0
  · obtain ⟨k, value⟩ := Int.eq_ofNat_of_zero_le (a := i.toInt + 16) (by omega)
    have marker : (i.toInt % 256).toNat = 240 + k := by omega
    have byte : (UInt8.ofNat (240 + k)).toNat = 240 + k := by
      rw [UInt8.toNat_ofNat']
      omega
    have read : Int.bmod ((240 + k : Nat) : Int) 256 = i.toInt := by
      rw [Int.bmod_def]
      omega
    rw [marker, dispatch_negative (by omega), byte, read, Int64.ofInt_toInt]
  · obtain ⟨m, value⟩ := Int.eq_ofNat_of_zero_le (Int.le_of_not_gt negative)
    have byte : (UInt8.ofNat m).toNat = m := by
      rw [UInt8.toNat_ofNat']
      omega
    have marker : (i.toInt % 256).toNat = m := by omega
    have bound : (0x7F : UInt8).toNat = 127 := rfl
    have tiny : UInt8.ofNat m ≤ 0x7F := by
      rw [UInt8.le_iff_toNat_le, byte, bound]
      omega
    rw [marker, dispatch, if_pos tiny, byte, ← value, Int64.ofInt_toInt]

theorem decodeMarked_int (whole : buf = before ++ (encodeInt i ++ rest)) :
    decodeMarked inner buf before.length = .ok (.int i, before.length + (encodeInt i).length) := by
  have sized : ∀ (marker : UInt8) (width : Nat), -(256 ^ width : Nat) ≤ 2 * i.toInt →
      2 * i.toInt < (256 ^ width : Nat) → encodeInt i = marker :: intBytes width i.toInt →
      (∀ start, dispatch inner buf marker start = decodeIntegerAt buf start width) →
      decodeMarked inner buf before.length =
        .ok (.int i, before.length + (encodeInt i).length) := by
    intro marker width low high form reads
    rw [form] at whole
    have split_ : buf = (before ++ [marker]) ++ (intBytes width i.toInt ++ rest) := by
      rw [whole]
      simp only [append_assoc, cons_append, nil_append]
    rw [decodeMarked_at whole, reads, decodeIntegerAt_at low high split_
      (by rw [length_append, length_singleton]), form, length_cons, intBytes,
      length_beBytes]
    congr 2
    omega
  have low := i.le_toInt
  have high := i.toInt_lt
  by_cases tiny : -16 ≤ i.toInt ∧ i.toInt ≤ 127
  · have form : encodeInt i = [UInt8.ofNat (i.toInt % 256).toNat] := by
      have small : (i.toInt % 256).toNat % 256 = (i.toInt % 256).toNat := by omega
      rw [encodeInt, if_pos tiny, intBytes, beBytes, leBytes, leBytes]
      simp only [Int.pow_one, small]
      rfl
    rw [form] at whole ⊢
    rw [decodeMarked_at whole, dispatch_tinyInt tiny.1 tiny.2]
    rfl
  · by_cases byte : -128 ≤ i.toInt ∧ i.toInt ≤ -17
    · refine sized Marker.int8 1 (by omega) (by omega) ?_ fun _ => rfl
      rw [encodeInt, if_neg tiny, if_pos byte]
    · by_cases word : -32768 ≤ i.toInt ∧ i.toInt ≤ 32767
      · refine sized Marker.int16 2 (by omega) (by omega) ?_ fun _ => rfl
        rw [encodeInt, if_neg tiny, if_neg byte, if_pos word]
      · by_cases dword : -2147483648 ≤ i.toInt ∧ i.toInt ≤ 2147483647
        · refine sized Marker.int32 4 (by omega) (by omega) ?_ fun _ => rfl
          rw [encodeInt, if_neg tiny, if_neg byte, if_neg word, if_pos dword]
        · refine sized Marker.int64 8 (by omega) (by omega) ?_ fun _ => rfl
          rw [encodeInt, if_neg tiny, if_neg byte, if_neg word, if_neg dword]

theorem decodeMarked_float {bits : UInt64}
    (whole : buf = before ++ (Marker.float64 :: beBytes 8 bits.toNat ++ rest)) :
    decodeMarked inner buf before.length = .ok (.float bits, before.length + 9) := by
  have split_ : buf = (before ++ [Marker.float64]) ++ (beBytes 8 bits.toNat ++ rest) := by
    rw [whole]
    simp only [append_assoc, cons_append, nil_append]
  have reads : dispatch inner buf Marker.float64 (before.length + 1) = (do
      let bits ← readNumber buf (before.length + 1) 8
      return (.float (UInt64.ofNat bits), before.length + 1 + 8)) := rfl
  rw [decodeMarked_at whole, reads, readNumber_at bits.toNat_lt split_
    (by rw [length_append, length_singleton])]
  simp only [bind, Except.bind, UInt64.ofNat_toNat]
  rfl

end Headers

mutual

theorem encode_ok : ∀ v : Value, Sound v → ∃ written, encode v = .ok written
  | .null, _ => ⟨_, rfl⟩
  | .bool true, _ => ⟨_, rfl⟩
  | .bool false, _ => ⟨_, rfl⟩
  | .int _, _ => ⟨_, rfl⟩
  | .float bits, sound => ⟨_, if_pos (show isFinite bits from sound)⟩
  | .string _, _ => ⟨_, rfl⟩
  | .bytes _, _ => ⟨_, rfl⟩
  | .list items, sound => by
    obtain ⟨body, ok⟩ := encodeItems_ok items sound.2
    rw [encode, ok]
    exact ⟨_, rfl⟩
  | .dict pairs, sound => by
    obtain ⟨body, ok⟩ := encodePairs_ok pairs sound.2
    rw [encode, ok]
    exact ⟨_, rfl⟩
  | .struct _ fields, sound => by
    obtain ⟨body, ok⟩ := encodeItems_ok fields sound.2
    rw [encode, ok]
    exact ⟨_, rfl⟩

theorem encodeItems_ok : ∀ items : List Value, SoundItems items →
    ∃ written, encodeItems items = .ok written
  | [], _ => ⟨_, rfl⟩
  | item :: items, sound => by
    obtain ⟨first, firstOk⟩ := encode_ok item sound.1
    obtain ⟨others, othersOk⟩ := encodeItems_ok items sound.2
    rw [encodeItems, firstOk, othersOk]
    exact ⟨_, rfl⟩

theorem encodePairs_ok : ∀ pairs : List (String × Value), SoundPairs pairs →
    ∃ written, encodePairs pairs = .ok written
  | [], _ => ⟨_, rfl⟩
  | (key, value) :: pairs, sound => by
    obtain ⟨first, firstOk⟩ := encode_ok value sound.2.1
    obtain ⟨others, othersOk⟩ := encodePairs_ok pairs sound.2.2
    rw [encodePairs, firstOk, othersOk]
    exact ⟨_, rfl⟩

end

theorem decodeAt_succ (buf : List UInt8) (levels offset : Nat) :
    decodeAt buf (levels + 1) offset = decodeMarked (some (decodeAt buf levels)) buf offset := rfl

theorem decodeAt_of_marked {levels offset : Nat} {result : Except Failure (Value × Nat)}
    (reads : ∀ inner, decodeMarked inner buf offset = result) :
    decodeAt buf levels offset = result := by
  cases levels with
  | zero => exact reads none
  | succ levels => exact reads _

section Structures

variable {inner : Option (Nat → Except Failure (Value × Nat))}

theorem decodeMarked_struct {tag : UInt8} {count : Nat} (few : count ≤ 15)
    (whole : buf = before ++ (Marker.tinyStructBase ||| UInt8.ofNat (min count 15)) :: tag :: rest) :
    decodeMarked inner buf before.length = decodeStructBody inner (before.length + 2) tag count := by
  rw [Nat.min_eq_left few] at whole
  have one : beBytes 1 tag.toNat = [tag] := by
    rw [beBytes, leBytes, leBytes, Nat.mod_eq_of_lt tag.toNat_lt, UInt8.ofNat_toNat]
    rfl
  have split_ : buf = (before ++ [Marker.tinyStructBase ||| UInt8.ofNat count]) ++
      (beBytes 1 tag.toNat ++ rest) := by
    rw [whole, one]
    simp only [append_assoc, cons_append, nil_append]
  rw [decodeMarked_at whole, (tiny_marker few _ buf).2.2.2, decodeStruct,
    readNumber_at tag.toNat_lt split_ (by rw [length_append, length_singleton])]
  simp only [bind, Except.bind, UInt8.ofNat_toNat]

end Structures

mutual

/-- A value is read back from its bytes, wherever they are. -/
theorem decodeAt_encode : ∀ (v : Value) {levels : Nat} {written buf before rest : List UInt8},
    Sound v → nesting v ≤ levels → encode v = .ok written → buf = before ++ (written ++ rest) →
      decodeAt buf levels before.length = .ok (v, before.length + written.length)
  | .null, _, _, _, _, _, _, _, ok, whole => by
    cases ok
    exact decodeAt_of_marked fun _ => decodeMarked_at whole
  | .bool true, _, _, _, _, _, _, _, ok, whole => by
    cases ok
    exact decodeAt_of_marked fun _ => decodeMarked_at whole
  | .bool false, _, _, _, _, _, _, _, ok, whole => by
    cases ok
    exact decodeAt_of_marked fun _ => decodeMarked_at whole
  | .int _, _, _, _, _, _, _, _, ok, whole => by
    cases ok
    exact decodeAt_of_marked fun _ => decodeMarked_int whole
  | .float bits, _, _, _, _, _, sound, _, ok, whole => by
    rw [encode, if_pos (show isFinite bits from sound)] at ok
    cases ok
    rw [length_cons, length_beBytes]
    exact decodeAt_of_marked fun _ => decodeMarked_float whole
  | .string _, _, _, _, _, _, sound, _, ok, whole => by
    cases ok
    exact decodeAt_of_marked fun _ => decodeMarked_string sound whole
  | .bytes _, _, _, _, _, _, sound, _, ok, whole => by
    cases ok
    exact decodeAt_of_marked fun _ => decodeMarked_bytes sound whole
  | .list items, 0, _, _, _, _, _, deep, _, _ => absurd deep (by simp [nesting])
  | .list items, levels + 1, written, buf, before, rest, sound, deep, ok, whole => by
    obtain ⟨body, bodyOk, ok⟩ := ok_of_bind ok
    cases ok
    have form : encodeSizedHeader items.length Marker.tinyListBase Marker.list8 Marker.list16
      Marker.list32 = Family.lists.header items.length := rfl
    rw [form] at whole ⊢
    rw [append_assoc] at whole
    have split_ : buf = (before ++ Family.lists.header items.length) ++ (body ++ rest) := by
      rw [whole, append_assoc]
    have read := decodeItems_encode items sound.2 (Nat.le_of_succ_le_succ deep) bodyOk split_
    rw [length_append] at read
    rw [decodeAt_succ, decodeMarked_header .lists sound.1 whole, Family.body, decodeListBody,
      read, length_append, ← add_assoc]
    rfl
  | .dict pairs, 0, _, _, _, _, _, deep, _, _ => absurd deep (by simp [nesting])
  | .dict pairs, levels + 1, written, buf, before, rest, sound, deep, ok, whole => by
    obtain ⟨body, bodyOk, ok⟩ := ok_of_bind ok
    cases ok
    have form : encodeSizedHeader pairs.length Marker.tinyDictBase Marker.dict8 Marker.dict16
      Marker.dict32 = Family.dicts.header pairs.length := rfl
    rw [form] at whole ⊢
    rw [append_assoc] at whole
    have split_ : buf = (before ++ Family.dicts.header pairs.length) ++ (body ++ rest) := by
      rw [whole, append_assoc]
    have read := decodePairs_encode pairs sound.2 (Nat.le_of_succ_le_succ deep) bodyOk split_
    rw [length_append] at read
    rw [decodeAt_succ, decodeMarked_header .dicts sound.1 whole, Family.body, decodeDictBody,
      read, length_append, ← add_assoc]
    rfl
  | .struct _ fields, 0, _, _, _, _, _, deep, _, _ => absurd deep (by simp [nesting])
  | .struct tag fields, levels + 1, written, buf, before, rest, sound, deep, ok, whole => by
    obtain ⟨body, bodyOk, ok⟩ := ok_of_bind ok
    cases ok
    have split_ : buf = (before ++ [Marker.tinyStructBase ||| UInt8.ofNat (min fields.length 15),
        tag]) ++ (body ++ rest) := by
      rw [whole]
      simp only [append_assoc, cons_append, nil_append]
    have read := decodeItems_encode fields sound.2 (Nat.le_of_succ_le_succ deep) bodyOk split_
    have two : (before ++ [Marker.tinyStructBase ||| UInt8.ofNat (min fields.length 15),
        tag]).length = before.length + 2 := by
      rw [length_append, length_cons, length_singleton]
    rw [two] at read
    rw [decodeAt_succ, decodeMarked_struct sound.1 whole, decodeStructBody, read,
      length_cons, length_cons]
    simp only [bind, Except.bind]
    refine congrArg (fun next => Except.ok (Value.struct tag fields, next)) ?_
    omega

theorem decodeItems_encode : ∀ (items : List Value) {levels : Nat}
    {written buf before rest : List UInt8}, SoundItems items → nestingItems items ≤ levels →
      encodeItems items = .ok written → buf = before ++ (written ++ rest) →
      decodeItems (decodeAt buf levels) items.length before.length =
        .ok (items, before.length + written.length)
  | [], _, _, _, _, _, _, _, ok, _ => by
    cases ok
    rfl
  | item :: items, levels, written, buf, before, rest, sound, deep, ok, whole => by
    obtain ⟨first, firstOk, ok⟩ := ok_of_bind ok
    obtain ⟨others, othersOk, ok⟩ := ok_of_bind ok
    cases ok
    rw [append_assoc] at whole
    have split_ : buf = (before ++ first) ++ (others ++ rest) := by
      rw [whole, append_assoc]
    have here := decodeAt_encode item sound.1 (Nat.le_trans (le_max_left _ _) deep) firstOk
      whole
    have later := decodeItems_encode items sound.2 (Nat.le_trans (le_max_right _ _) deep)
      othersOk split_
    rw [length_append] at later
    rw [length_cons, decodeItems, here]
    simp only [bind, Except.bind, later, length_append, add_assoc]
    rfl

theorem decodePairs_encode : ∀ (pairs : List (String × Value)) {levels : Nat}
    {written buf before rest : List UInt8}, SoundPairs pairs → nestingPairs pairs ≤ levels →
      encodePairs pairs = .ok written → buf = before ++ (written ++ rest) →
      decodePairs (decodeAt buf levels) pairs.length before.length =
        .ok (pairs, before.length + written.length)
  | [], _, _, _, _, _, _, _, ok, _ => by
    cases ok
    rfl
  | (key, value) :: pairs, levels, written, buf, before, rest, sound, deep, ok, whole => by
    obtain ⟨first, firstOk, ok⟩ := ok_of_bind ok
    obtain ⟨others, othersOk, ok⟩ := ok_of_bind ok
    cases ok
    rw [append_assoc, append_assoc] at whole
    have splitValue : buf = (before ++ encodeString key) ++ (first ++ (others ++ rest)) := by
      rw [whole, append_assoc]
    have splitRest : buf = ((before ++ encodeString key) ++ first) ++ (others ++ rest) := by
      rw [splitValue]
      simp only [append_assoc]
    have keyRead : decodeAt buf levels before.length =
        .ok (.string key, before.length + (encodeString key).length) :=
      decodeAt_of_marked fun _ => decodeMarked_string sound.1 whole
    have here := decodeAt_encode value sound.2.1 (Nat.le_trans (le_max_left _ _) deep)
      firstOk splitValue
    have later := decodePairs_encode pairs sound.2.2 (Nat.le_trans (le_max_right _ _) deep)
      othersOk splitRest
    rw [length_append] at here
    rw [length_append, length_append, add_assoc] at later
    rw [length_cons, decodePairs, keyRead]
    simp only [bind, Except.bind, here, later, length_append, add_assoc]
    rfl

end

theorem decode_encode {v : Value} {written : List UInt8} (sound : Sound v)
    (shallow : nesting v ≤ maxDecodeDepth) (ok : encode v = .ok written) (rest : List UInt8) :
    decode (written ++ rest) = .ok (v, written.length) := by
  have read := @decodeAt_encode v maxDecodeDepth written (written ++ rest) [] rest sound shallow
    ok rfl
  rw [length_nil, zero_add] at read
  have some_ : 1 ≤ (written ++ rest).length := by
    have inside := (inside_decodeAt (written ++ rest) maxDecodeDepth 0).bounds _ _ read
    omega
  rw [decode, requireBytesFrom, if_neg (by omega)]
  exact read

end PackStream

end ErmyaGraph.Bolt
