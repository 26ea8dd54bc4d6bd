import Mathlib.Data.List.GetD
import ErmyaGraph.Lib.Bytes

/-! # Journal records as bytes

A record carries its length in front and a checksum of its content at the end.
Reading back what was written gives the record, and a record that is cut short
is not read at all. The checksum is any function of the bytes. -/

namespace ErmyaGraph.WalCodec

open Bytes Option

def slotSize : Nat := 128

def pageSize : Nat := 4096

abbrev Buf (size : Nat) := { bytes : List UInt8 // bytes.length = size }

inductive WalRecord where
  | writeNode (lsn : UInt64) (page : UInt32) (slotIdx : UInt8) (slot : Buf slotSize)
      (txn : Option UInt64)
  | writeEdge (lsn : UInt64) (page : UInt32) (slotIdx : UInt8) (slot : Buf slotSize)
      (txn : Option UInt64)
  | tombstoneNode (lsn node : UInt64) (txn : Option UInt64)
  | tombstoneEdge (lsn edge : UInt64) (txn : Option UInt64)
  | writeAdjPage (lsn : UInt64) (page : UInt32) (data : Buf pageSize) (txn : Option UInt64)
  | writeStringPage (lsn : UInt64) (page : UInt32) (data : Buf pageSize) (txn : Option UInt64)
  | writeOverflowPage (lsn : UInt64) (page : UInt32) (data : Buf pageSize) (txn : Option UInt64)
  | checkpoint (lsn : UInt64)
  | begin (lsn txn : UInt64)
  | commit (lsn txn : UInt64)
  | rollback (lsn txn : UInt64)
  | freeListState (lsn : UInt64) (fileIndex : UInt8) (directoryHead sparePage freeCount : UInt32)

/-- Why a record could not be read. -/
structure WalCorrupt where
  reason : String

def encodeSlot (tag : UInt8) (lsn : UInt64) (page : UInt32) (slotIdx : UInt8)
    (slot : Buf slotSize) : List UInt8 :=
  tag :: (leBytes 8 lsn.toNat ++ (leBytes 4 page.toNat ++ slotIdx :: slot.val))

def encodePage (tag : UInt8) (lsn : UInt64) (page : UInt32) (data : Buf pageSize) : List UInt8 :=
  tag :: (leBytes 8 lsn.toNat ++ (leBytes 4 page.toNat ++ data.val))

def encodeId (tag : UInt8) (lsn id : UInt64) : List UInt8 :=
  tag :: (leBytes 8 lsn.toNat ++ leBytes 8 id.toNat)

def encodeOptTxnId : Option UInt64 → List UInt8
  | some txn => 1 :: leBytes 8 txn.toNat
  | none => [0]

/-- The bytes of a record between its length and its checksum. -/
def body : WalRecord → List UInt8
  | .writeNode lsn page slotIdx slot txn =>
    encodeSlot 0x01 lsn page slotIdx slot ++ encodeOptTxnId txn
  | .writeEdge lsn page slotIdx slot txn =>
    encodeSlot 0x02 lsn page slotIdx slot ++ encodeOptTxnId txn
  | .tombstoneNode lsn node txn => encodeId 0x03 lsn node ++ encodeOptTxnId txn
  | .tombstoneEdge lsn edge txn => encodeId 0x04 lsn edge ++ encodeOptTxnId txn
  | .writeAdjPage lsn page data txn => encodePage 0x05 lsn page data ++ encodeOptTxnId txn
  | .writeStringPage lsn page data txn => encodePage 0x07 lsn page data ++ encodeOptTxnId txn
  | .writeOverflowPage lsn page data txn => encodePage 0x08 lsn page data ++ encodeOptTxnId txn
  | .checkpoint lsn => 0x06 :: leBytes 8 lsn.toNat
  | .begin lsn txn => encodeId 0x09 lsn txn
  | .commit lsn txn => encodeId 0x0A lsn txn
  | .rollback lsn txn => encodeId 0x0B lsn txn
  | .freeListState lsn fileIndex directoryHead sparePage freeCount =>
    0x0C :: (leBytes 8 lsn.toNat ++ fileIndex :: (leBytes 4 directoryHead.toNat ++
      (leBytes 4 sparePage.toNat ++ leBytes 4 freeCount.toNat)))

/-- Put the length in front of a body and the checksum behind it. -/
def frame (crc : List UInt8 → UInt32) (content : List UInt8) : List UInt8 :=
  leBytes 4 (content.length + 4) ++ (content ++ leBytes 4 (crc content).toNat)

def encode (crc : List UInt8 → UInt32) (record : WalRecord) : List UInt8 := frame crc (body record)

/-- The transaction id that may follow a payload. Records without the field have none. -/
def decodeOptTxnId (rest : List UInt8) (label : String) : Except WalCorrupt (Option UInt64) :=
  match rest.head? with
  | none => .ok none
  | some mark =>
    if mark = 0 then .ok none
    else if mark = 1 then
      if rest.length < 9 then .error ⟨label⟩ else .ok (some (u64 (span rest 1 9)))
    else .error ⟨label⟩

theorem length_span {bytes : List UInt8} {from_ size : Nat} (long : from_ + size ≤ bytes.length) :
    (span bytes from_ (from_ + size)).length = size := by
  rw [span, List.length_drop, List.length_take, Nat.min_eq_left long, Nat.add_sub_cancel_left]

def decodeSlot (payload : List UInt8) (label : String) :
    Except WalCorrupt (UInt32 × UInt8 × Buf slotSize) :=
  if short : payload.length < 5 + slotSize then .error ⟨label⟩
  else
    .ok (u32 (span payload 0 4), payload.getD 4 0,
      ⟨span payload 5 (5 + slotSize), length_span (Nat.not_lt.mp short)⟩)

def decodePage (payload : List UInt8) (label : String) : Except WalCorrupt (UInt32 × Buf pageSize) :=
  if short : payload.length < 4 + pageSize then .error ⟨label⟩
  else
    .ok (u32 (span payload 0 4), ⟨span payload 4 (4 + pageSize), length_span (Nat.not_lt.mp short)⟩)

def decodeId (payload : List UInt8) (label : String) : Except WalCorrupt UInt64 :=
  if payload.length < 8 then .error ⟨label⟩ else .ok (u64 (span payload 0 8))

/-- The record of a tag, a sequence number and a payload. -/
def decodeBody (tag : UInt8) (lsn : UInt64) (payload : List UInt8) : Except WalCorrupt WalRecord :=
  match tag with
  | 0x01 => do
      let (page, slotIdx, slot) ← decodeSlot payload "truncated WriteNode payload"
      let txn ← decodeOptTxnId (payload.drop (5 + slotSize)) "corrupt WriteNode txn_id"
      return .writeNode lsn page slotIdx slot txn
  | 0x02 => do
      let (page, slotIdx, slot) ← decodeSlot payload "truncated WriteEdge payload"
      let txn ← decodeOptTxnId (payload.drop (5 + slotSize)) "corrupt WriteEdge txn_id"
      return .writeEdge lsn page slotIdx slot txn
  | 0x03 => do
      let node ← decodeId payload "truncated TombstoneNode payload"
      let txn ← decodeOptTxnId (payload.drop 8) "corrupt TombstoneNode txn_id"
      return .tombstoneNode lsn node txn
  | 0x04 => do
      let edge ← decodeId payload "truncated TombstoneEdge payload"
      let txn ← decodeOptTxnId (payload.drop 8) "corrupt TombstoneEdge txn_id"
      return .tombstoneEdge lsn edge txn
  | 0x05 => do
      let (page, data) ← decodePage payload "truncated WriteAdjPage payload"
      let txn ← decodeOptTxnId (payload.drop (4 + pageSize)) "corrupt WriteAdjPage txn_id"
      return .writeAdjPage lsn page data txn
  | 0x07 => do
      let (page, data) ← decodePage payload "truncated WriteStringPage payload"
      let txn ← decodeOptTxnId (payload.drop (4 + pageSize)) "corrupt WriteStringPage txn_id"
      return .writeStringPage lsn page data txn
  | 0x08 => do
      let (page, data) ← decodePage payload "truncated WriteOverflowPage payload"
      let txn ← decodeOptTxnId (payload.drop (4 + pageSize)) "corrupt WriteOverflowPage txn_id"
      return .writeOverflowPage lsn page data txn
  | 0x06 => return .checkpoint lsn
  | 0x09 => do
      let txn ← decodeId payload "truncated Begin payload"
      return .begin lsn txn
  | 0x0A => do
      let txn ← decodeId payload "truncated Commit payload"
      return .commit lsn txn
  | 0x0B => do
      let txn ← decodeId payload "truncated Rollback payload"
      return .rollback lsn txn
  | 0x0C =>
    if payload.length < 13 then .error ⟨"truncated FreeListState payload"⟩
    else
      .ok (.freeListState lsn (payload.getD 0 0) (u32 (span payload 1 5)) (u32 (span payload 5 9))
        (u32 (span payload 9 13)))
  | _ => .error ⟨"unknown record tag"⟩

/-- The record at the start of a buffer, and how many bytes it takes. -/
def decode (crc : List UInt8 → UInt32) (buf : List UInt8) : Except WalCorrupt (WalRecord × Nat) :=
  if buf.length < 4 then .error ⟨"truncated record length"⟩
  else
    let recordLen := leNat (span buf 0 4)
    let totalLen := 4 + recordLen
    if buf.length < totalLen then .error ⟨"truncated record body"⟩
    else if recordLen < 13 then .error ⟨"record too small"⟩
    else
      let crcOffset := totalLen - 4
      if u32 (span buf crcOffset totalLen) ≠ crc (span buf 4 crcOffset) then .error ⟨"CRC mismatch"⟩
      else do
        let record ← decodeBody (buf.getD 4 0) (u64 (span buf 5 13)) (span buf 13 crcOffset)
        return (record, totalLen)

section RoundTrip

theorem getD_append (front rest : List UInt8) (byte : UInt8) {index : Nat}
    (starts : front.length = index) : (front ++ byte :: rest).getD index 0 = byte := by
  rw [List.getD_append_right _ _ _ _ (Nat.le_of_eq starts), starts, Nat.sub_self]
  rfl

variable (txn : Option UInt64)

theorem decodeOptTxnId_encode (label : String) :
    decodeOptTxnId (encodeOptTxnId txn) label = .ok txn := by
  cases txn with
  | none => rfl
  | some txn =>
    have read : span ([1] ++ (leBytes 8 txn.toNat ++ [])) 1 9 = leBytes 8 txn.toNat :=
      span_append [1] _ [] rfl (by simp)
    rw [List.append_nil] at read
    have whole : encodeOptTxnId (some txn) = [1] ++ leBytes 8 txn.toNat := rfl
    have long : ¬([1] ++ leBytes 8 txn.toNat).length < 9 := by simp
    rw [whole, decodeOptTxnId, read, u64_leBytes]
    exact (if_neg (by decide : ¬(1 : UInt8) = 0)).trans ((if_pos rfl).trans (if_neg long))

theorem decodeSlot_encode (page : UInt32) (slotIdx : UInt8) (slot : Buf slotSize)
    (rest : List UInt8) (label : String) :
    decodeSlot (leBytes 4 page.toNat ++ slotIdx :: (slot.val ++ rest)) label =
      .ok (page, slotIdx, slot) := by
  have size := slot.property
  have long : ¬(leBytes 4 page.toNat ++ slotIdx :: (slot.val ++ rest)).length < 5 + slotSize := by
    simp only [List.length_append, length_leBytes, List.length_cons, size]
    omega
  have readPage : span ([] ++ (leBytes 4 page.toNat ++ slotIdx :: (slot.val ++ rest))) 0 4 =
      leBytes 4 page.toNat := span_append [] _ _ rfl (by simp)
  have readIdx := getD_append (leBytes 4 page.toNat) (slot.val ++ rest) slotIdx (length_leBytes 4 _)
  have readSlot : span ((leBytes 4 page.toNat ++ [slotIdx]) ++ (slot.val ++ rest)) 5
      (5 + slotSize) = slot.val := span_append _ _ _ (by simp) (by rw [size])
  rw [List.append_assoc, List.singleton_append] at readSlot
  rw [List.nil_append] at readPage
  rw [decodeSlot, dif_neg long, readPage, readIdx, u32_leBytes]
  exact congrArg (fun slot => Except.ok (page, slotIdx, slot)) (Subtype.ext readSlot)

theorem decodePage_encode (page : UInt32) (data : Buf pageSize) (rest : List UInt8)
    (label : String) :
    decodePage (leBytes 4 page.toNat ++ (data.val ++ rest)) label = .ok (page, data) := by
  have size := data.property
  have long : ¬(leBytes 4 page.toNat ++ (data.val ++ rest)).length < 4 + pageSize := by
    simp only [List.length_append, length_leBytes, size]
    omega
  have readPage : span ([] ++ (leBytes 4 page.toNat ++ (data.val ++ rest))) 0 4 =
      leBytes 4 page.toNat := span_append [] _ _ rfl (by simp)
  have readData : span (leBytes 4 page.toNat ++ (data.val ++ rest)) 4 (4 + pageSize) = data.val :=
    span_append _ _ _ (by simp) (by rw [size])
  rw [List.nil_append] at readPage
  rw [decodePage, dif_neg long, readPage, u32_leBytes]
  exact congrArg (fun data => Except.ok (page, data)) (Subtype.ext readData)

theorem decodeId_encode (id : UInt64) (rest : List UInt8) (label : String) :
    decodeId (leBytes 8 id.toNat ++ rest) label = .ok id := by
  have long : ¬(leBytes 8 id.toNat ++ rest).length < 8 := by simp
  have read : span ([] ++ (leBytes 8 id.toNat ++ rest)) 0 8 = leBytes 8 id.toNat :=
    span_append [] _ _ rfl (by simp)
  rw [List.nil_append] at read
  rw [decodeId, if_neg long, read, u64_leBytes]

theorem length_encodeOptTxnId : (encodeOptTxnId txn).length ≤ 9 := by
  cases txn with
  | none => decide
  | some txn => simp [encodeOptTxnId]

/-- A record's body is its tag, its sequence number and a payload that names the record. -/
structure Parts (record : WalRecord) (tag : UInt8) (lsn : UInt64) (payload : List UInt8) :
    Prop where
  body : body record = tag :: (leBytes 8 lsn.toNat ++ payload)
  short : payload.length ≤ 4 + pageSize + 9
  reads : decodeBody tag lsn payload = .ok record

variable {tag : UInt8} {lsn : UInt64} {truncated corrupt : String} {page : UInt32} {slotIdx : UInt8}
  {slot : Buf slotSize} {txn : Option UInt64} {trailer : List UInt8}
variable (make : UInt32 → UInt8 → Buf slotSize → Option UInt64 → WalRecord)

theorem reads_slot (ends : decodeOptTxnId trailer corrupt = .ok txn)
    (reads : ∀ payload, decodeBody tag lsn payload = do
      let (page, slotIdx, slot) ← decodeSlot payload truncated
      let txn ← decodeOptTxnId (payload.drop (5 + slotSize)) corrupt
      return make page slotIdx slot txn) :
    decodeBody tag lsn (leBytes 4 page.toNat ++ slotIdx :: (slot.val ++ trailer)) =
      .ok (make page slotIdx slot txn) := by
  have split : leBytes 4 page.toNat ++ slotIdx :: (slot.val ++ trailer) =
      (leBytes 4 page.toNat ++ slotIdx :: slot.val) ++ trailer := by simp
  have front : (leBytes 4 page.toNat ++ slotIdx :: slot.val).length = 5 + slotSize := by
    simp only [List.length_append, length_leBytes, List.length_cons, slot.property]
    omega
  have rest : (leBytes 4 page.toNat ++ slotIdx :: (slot.val ++ trailer)).drop (5 + slotSize) =
      trailer := by
    rw [split, ← front, List.drop_left]
  rw [reads, decodeSlot_encode, rest]
  simp only [bind, Except.bind, ends]
  rfl

variable {data : Buf pageSize}

theorem reads_page (make : UInt32 → Buf pageSize → Option UInt64 → WalRecord)
    (ends : decodeOptTxnId trailer corrupt = .ok txn)
    (reads : ∀ payload, decodeBody tag lsn payload = do
      let (page, data) ← decodePage payload truncated
      let txn ← decodeOptTxnId (payload.drop (4 + pageSize)) corrupt
      return make page data txn) :
    decodeBody tag lsn (leBytes 4 page.toNat ++ (data.val ++ trailer)) =
      .ok (make page data txn) := by
  have front : (leBytes 4 page.toNat ++ data.val).length = 4 + pageSize := by
    simp only [List.length_append, length_leBytes, data.property]
  have rest : (leBytes 4 page.toNat ++ (data.val ++ trailer)).drop (4 + pageSize) = trailer := by
    rw [← List.append_assoc, ← front, List.drop_left]
  rw [reads, decodePage_encode, rest]
  simp only [bind, Except.bind, ends]
  rfl

theorem reads_tombstone (make : UInt64 → Option UInt64 → WalRecord) {id : UInt64}
    (ends : decodeOptTxnId trailer corrupt = .ok txn)
    (reads : ∀ payload, decodeBody tag lsn payload = do
      let id ← decodeId payload truncated
      let txn ← decodeOptTxnId (payload.drop 8) corrupt
      return make id txn) :
    decodeBody tag lsn (leBytes 8 id.toNat ++ trailer) = .ok (make id txn) := by
  have rest : (leBytes 8 id.toNat ++ trailer).drop 8 = trailer :=
    List.drop_left' (length_leBytes 8 _)
  rw [reads, decodeId_encode, rest]
  simp only [bind, Except.bind, ends]
  rfl

theorem parts_slot (isBody : body (make page slotIdx slot txn) =
      encodeSlot tag lsn page slotIdx slot ++ encodeOptTxnId txn)
    (reads : ∀ payload, decodeBody tag lsn payload = do
      let (page, slotIdx, slot) ← decodeSlot payload truncated
      let txn ← decodeOptTxnId (payload.drop (5 + slotSize)) corrupt
      return make page slotIdx slot txn) :
    Parts (make page slotIdx slot txn) tag lsn
      (leBytes 4 page.toNat ++ slotIdx :: (slot.val ++ encodeOptTxnId txn)) := by
  have size := slot.property
  have few := length_encodeOptTxnId txn
  constructor
  · simp [isBody, encodeSlot]
  · simp only [List.length_append, length_leBytes, List.length_cons, size]
    have small : slotSize + 1 ≤ pageSize := by decide
    omega
  · exact reads_slot make (decodeOptTxnId_encode txn corrupt) reads

theorem parts_page (make : UInt32 → Buf pageSize → Option UInt64 → WalRecord)
    (isBody : body (make page data txn) = encodePage tag lsn page data ++ encodeOptTxnId txn)
    (reads : ∀ payload, decodeBody tag lsn payload = do
      let (page, data) ← decodePage payload truncated
      let txn ← decodeOptTxnId (payload.drop (4 + pageSize)) corrupt
      return make page data txn) :
    Parts (make page data txn) tag lsn
      (leBytes 4 page.toNat ++ (data.val ++ encodeOptTxnId txn)) := by
  have size := data.property
  have few := length_encodeOptTxnId txn
  constructor
  · simp [isBody, encodePage]
  · simp only [List.length_append, length_leBytes, size]
    omega
  · exact reads_page make (decodeOptTxnId_encode txn corrupt) reads

theorem parts_tombstone (make : UInt64 → Option UInt64 → WalRecord) {id : UInt64}
    (isBody : body (make id txn) = encodeId tag lsn id ++ encodeOptTxnId txn)
    (reads : ∀ payload, decodeBody tag lsn payload = do
      let id ← decodeId payload truncated
      let txn ← decodeOptTxnId (payload.drop 8) corrupt
      return make id txn) :
    Parts (make id txn) tag lsn (leBytes 8 id.toNat ++ encodeOptTxnId txn) := by
  have few := length_encodeOptTxnId txn
  constructor
  · simp [isBody, encodeId]
  · simp only [List.length_append, length_leBytes]
    have small : 4 ≤ pageSize := by decide
    omega
  · exact reads_tombstone make (decodeOptTxnId_encode txn corrupt) reads

theorem parts_marker (make : UInt64 → WalRecord) {id : UInt64}
    (isBody : body (make id) = encodeId tag lsn id)
    (reads : ∀ payload, decodeBody tag lsn payload = do
      let id ← decodeId payload truncated
      return make id) : Parts (make id) tag lsn (leBytes 8 id.toNat ++ []) := by
  constructor
  · simp [isBody, encodeId]
  · simp only [List.length_append, length_leBytes, List.length_nil]
    omega
  · rw [reads, decodeId_encode]
    rfl

theorem parts_freeListState (lsn : UInt64) (fileIndex : UInt8)
    (directoryHead sparePage freeCount : UInt32) :
    Parts (.freeListState lsn fileIndex directoryHead sparePage freeCount) 0x0C lsn
      (fileIndex :: (leBytes 4 directoryHead.toNat ++
        (leBytes 4 sparePage.toNat ++ leBytes 4 freeCount.toNat))) := by
  constructor
  · rfl
  · simp only [List.length_append, length_leBytes, List.length_cons]
    omega
  · have readHead : span ([fileIndex] ++ (leBytes 4 directoryHead.toNat ++
        (leBytes 4 sparePage.toNat ++ leBytes 4 freeCount.toNat))) 1 5 =
        leBytes 4 directoryHead.toNat := span_append _ _ _ rfl (by simp)
    have readSpare : span (([fileIndex] ++ leBytes 4 directoryHead.toNat) ++
        (leBytes 4 sparePage.toNat ++ leBytes 4 freeCount.toNat)) 5 9 =
        leBytes 4 sparePage.toNat := span_append _ _ _ (by simp) (by simp)
    have readCount : span (([fileIndex] ++ leBytes 4 directoryHead.toNat ++
        leBytes 4 sparePage.toNat) ++ (leBytes 4 freeCount.toNat ++ [])) 9 13 =
        leBytes 4 freeCount.toNat := span_append _ _ _ (by simp) (by simp)
    simp only [List.append_assoc, List.nil_append, List.append_nil, List.cons_append]
      at readHead readSpare readCount
    have long : ¬(fileIndex :: (leBytes 4 directoryHead.toNat ++
        (leBytes 4 sparePage.toNat ++ leBytes 4 freeCount.toNat))).length < 13 := by simp
    simp only [decodeBody, if_neg long, readHead, readSpare, readCount, u32_leBytes]
    rfl

variable (record : WalRecord)

theorem exists_parts : ∃ tag lsn payload, Parts record tag lsn payload := by
  cases record with
  | writeNode lsn page slotIdx slot txn =>
    exact ⟨_, _, _, parts_slot (.writeNode lsn) rfl fun _ => rfl⟩
  | writeEdge lsn page slotIdx slot txn =>
    exact ⟨_, _, _, parts_slot (.writeEdge lsn) rfl fun _ => rfl⟩
  | tombstoneNode lsn node txn =>
    exact ⟨_, _, _, parts_tombstone (.tombstoneNode lsn) rfl fun _ => rfl⟩
  | tombstoneEdge lsn edge txn =>
    exact ⟨_, _, _, parts_tombstone (.tombstoneEdge lsn) rfl fun _ => rfl⟩
  | writeAdjPage lsn page data txn =>
    exact ⟨_, _, _, parts_page (.writeAdjPage lsn) rfl fun _ => rfl⟩
  | writeStringPage lsn page data txn =>
    exact ⟨_, _, _, parts_page (.writeStringPage lsn) rfl fun _ => rfl⟩
  | writeOverflowPage lsn page data txn =>
    exact ⟨_, _, _, parts_page (.writeOverflowPage lsn) rfl fun _ => rfl⟩
  | checkpoint lsn =>
    exact ⟨0x06, lsn, [], ⟨by simp [body], by simp, rfl⟩⟩
  | begin lsn txn => exact ⟨_, _, _, parts_marker (.begin lsn) rfl fun _ => rfl⟩
  | commit lsn txn => exact ⟨_, _, _, parts_marker (.commit lsn) rfl fun _ => rfl⟩
  | rollback lsn txn => exact ⟨_, _, _, parts_marker (.rollback lsn) rfl fun _ => rfl⟩
  | freeListState lsn fileIndex directoryHead sparePage freeCount =>
    exact ⟨_, _, _, parts_freeListState lsn fileIndex directoryHead sparePage freeCount⟩

variable {crc : List UInt8 → UInt32}

theorem length_frame (content : List UInt8) : (frame crc content).length = content.length + 8 := by
  simp only [frame, List.length_append, length_leBytes]
  omega

/-- A framed body is read whole, whatever follows it. -/
theorem decode_frame {payload rest : List UInt8} (short : payload.length ≤ 4 + pageSize + 9) :
    decode crc (frame crc (tag :: (leBytes 8 lsn.toNat ++ payload)) ++ rest) =
      (do
        let record ← decodeBody tag lsn payload
        return (record, (frame crc (tag :: (leBytes 8 lsn.toNat ++ payload))).length)) := by
  have small : 4 + pageSize + 9 + 13 < 256 ^ 4 := by decide
  have size : (tag :: (leBytes 8 lsn.toNat ++ payload)).length = payload.length + 9 := by
    simp only [List.length_cons, List.length_append, length_leBytes]
    omega
  generalize sum : leBytes 4 (crc (tag :: (leBytes 8 lsn.toNat ++ payload))).toNat = sumBytes
  have sumSize : sumBytes.length = 4 := by rw [← sum, length_leBytes]
  have whole : frame crc (tag :: (leBytes 8 lsn.toNat ++ payload)) ++ rest =
      leBytes 4 (payload.length + 13) ++
        (tag :: (leBytes 8 lsn.toNat ++ (payload ++ (sumBytes ++ rest)))) := by
    rw [frame, sum, size]
    simp [Nat.add_assoc]
  have readLen : span ([] ++ (leBytes 4 (payload.length + 13) ++
      (tag :: (leBytes 8 lsn.toNat ++ (payload ++ (sumBytes ++ rest)))))) 0 4 =
      leBytes 4 (payload.length + 13) := span_append [] _ _ rfl (by simp)
  have readSum : span ((leBytes 4 (payload.length + 13) ++
      (tag :: (leBytes 8 lsn.toNat ++ payload))) ++ (sumBytes ++ rest)) (payload.length + 13)
      (4 + (payload.length + 13)) = sumBytes :=
    span_append _ _ _ (by simp; omega) (by omega)
  have readContent : span (leBytes 4 (payload.length + 13) ++
      ((tag :: (leBytes 8 lsn.toNat ++ payload)) ++ (sumBytes ++ rest))) 4 (payload.length + 13) =
      tag :: (leBytes 8 lsn.toNat ++ payload) :=
    span_append _ _ _ (length_leBytes 4 _) (by omega)
  have readTag := getD_append (leBytes 4 (payload.length + 13))
    (leBytes 8 lsn.toNat ++ (payload ++ (sumBytes ++ rest))) tag (length_leBytes 4 _)
  have readLsn : span ((leBytes 4 (payload.length + 13) ++ [tag]) ++
      (leBytes 8 lsn.toNat ++ (payload ++ (sumBytes ++ rest)))) 5 13 = leBytes 8 lsn.toNat :=
    span_append _ _ _ (by simp) (by simp)
  have readPayload : span ((leBytes 4 (payload.length + 13) ++ tag :: leBytes 8 lsn.toNat) ++
      (payload ++ (sumBytes ++ rest))) 13 (payload.length + 13) = payload :=
    span_append _ _ _ (by simp) (by omega)
  simp only [List.append_assoc, List.nil_append, List.cons_append]
    at readLen readSum readContent readLsn readPayload
  have total : (leBytes 4 (payload.length + 13) ++
      (tag :: (leBytes 8 lsn.toNat ++ (payload ++ (sumBytes ++ rest))))).length =
      4 + (payload.length + 13) + rest.length := by
    simp only [List.length_append, List.length_cons, length_leBytes, sumSize]
    omega
  have offset : 4 + (payload.length + 13) - 4 = payload.length + 13 := by omega
  have fits : payload.length + 13 < 256 ^ 4 := by omega
  rw [length_frame, size, whole, decode, if_neg (by omega)]
  simp only [readLen, leNat_leBytes fits, total, offset, readSum, readContent, readTag, readLsn,
    readPayload, u64_leBytes]
  rw [if_neg (by omega), if_neg (by omega), ← sum, u32_leBytes]
  have end_ : 4 + (payload.length + 13) = payload.length + 9 + 8 := by omega
  rw [end_]
  exact if_neg (not_not.mpr rfl)

theorem decode_encode (crc : List UInt8 → UInt32) (record : WalRecord) (rest : List UInt8) :
    decode crc (encode crc record ++ rest) = .ok (record, (encode crc record).length) := by
  obtain ⟨tag, lsn, payload, parts⟩ := exists_parts record
  rw [encode, parts.body, decode_frame parts.short, parts.reads]
  rfl

theorem length_encode_pos (crc : List UInt8 → UInt32) (record : WalRecord) :
    0 < (encode crc record).length := by
  rw [encode, length_frame]
  omega

theorem decode_take {n : Nat} (cut : n < (encode crc record).length) :
    ∃ e, decode crc ((encode crc record).take n) = .error e := by
  obtain ⟨tag, lsn, payload, parts⟩ := exists_parts record
  have short := parts.short
  have small : 4 + pageSize + 9 + 13 < 256 ^ 4 := by decide
  have size : (body record).length = payload.length + 9 := by
    rw [parts.body]
    simp only [List.length_cons, List.length_append, length_leBytes]
    omega
  have length : ((encode crc record).take n).length = n := by
    rw [List.length_take]
    omega
  by_cases few : n < 4
  · exact ⟨_, if_pos (by rw [length]; exact few)⟩
  · have readLen : span ((encode crc record).take n) 0 4 = leBytes 4 (payload.length + 13) := by
      have read : span ([] ++ (leBytes 4 ((body record).length + 4) ++ (body record ++
          leBytes 4 (crc (body record)).toNat))) 0 4 = leBytes 4 ((body record).length + 4) :=
        span_append [] _ _ rfl (by simp)
      rw [List.nil_append, size] at read
      have sooner : min 4 n = 4 := by omega
      rw [span, List.take_take, sooner, encode, frame, size]
      exact read
    have fits : payload.length + 13 < 256 ^ 4 := by omega
    rw [encode, length_frame, size] at cut
    rw [decode, length, if_neg few, readLen, leNat_leBytes fits]
    exact ⟨_, if_pos (by omega)⟩

/-- The bytes of a data record up to where the transaction id stands; older journals end there. -/
def legacyBody : WalRecord → Option (List UInt8)
  | .writeNode lsn page slotIdx slot _ => some (encodeSlot 0x01 lsn page slotIdx slot)
  | .writeEdge lsn page slotIdx slot _ => some (encodeSlot 0x02 lsn page slotIdx slot)
  | .tombstoneNode lsn node _ => some (encodeId 0x03 lsn node)
  | .tombstoneEdge lsn edge _ => some (encodeId 0x04 lsn edge)
  | .writeAdjPage lsn page data _ => some (encodePage 0x05 lsn page data)
  | .writeStringPage lsn page data _ => some (encodePage 0x07 lsn page data)
  | .writeOverflowPage lsn page data _ => some (encodePage 0x08 lsn page data)
  | .checkpoint _ | .begin _ _ | .commit _ _ | .rollback _ _ | .freeListState _ _ _ _ _ => none

/-- The record with no transaction id. -/
def withoutTxn : WalRecord → WalRecord
  | .writeNode lsn page slotIdx slot _ => .writeNode lsn page slotIdx slot none
  | .writeEdge lsn page slotIdx slot _ => .writeEdge lsn page slotIdx slot none
  | .tombstoneNode lsn node _ => .tombstoneNode lsn node none
  | .tombstoneEdge lsn edge _ => .tombstoneEdge lsn edge none
  | .writeAdjPage lsn page data _ => .writeAdjPage lsn page data none
  | .writeStringPage lsn page data _ => .writeStringPage lsn page data none
  | .writeOverflowPage lsn page data _ => .writeOverflowPage lsn page data none
  | record => record

variable {record : WalRecord} {content : List UInt8}

/-- The bytes that end before the transaction id carry the record without one. -/
theorem exists_legacy (isLegacy : legacyBody record = some content) : ∃ tag lsn payload,
      content = tag :: (leBytes 8 lsn.toNat ++ payload) ∧ payload.length ≤ 4 + pageSize + 9 ∧
        decodeBody tag lsn payload = .ok (withoutTxn record) := by
  have ends (corrupt : String) : decodeOptTxnId [] corrupt = .ok none := rfl
  have slotSmall : slotSize + 1 ≤ pageSize := by decide
  have idSmall : 8 ≤ pageSize := by decide
  have slots {make : UInt32 → UInt8 → Buf slotSize → Option UInt64 → WalRecord} {tag : UInt8}
      {lsn : UInt64} {page : UInt32} {slotIdx : UInt8} {slot : Buf slotSize}
      {truncated corrupt : String} (reads : ∀ payload, decodeBody tag lsn payload = do
        let (page, slotIdx, slot) ← decodeSlot payload truncated
        let txn ← decodeOptTxnId (payload.drop (5 + slotSize)) corrupt
        return make page slotIdx slot txn) :
      ∃ tag' lsn' payload, encodeSlot tag lsn page slotIdx slot =
          tag' :: (leBytes 8 (UInt64.toNat lsn') ++ payload) ∧ payload.length ≤ 4 + pageSize + 9 ∧
        decodeBody tag' lsn' payload = .ok (make page slotIdx slot none) := by
    refine ⟨tag, lsn, leBytes 4 page.toNat ++ slotIdx :: (slot.val ++ []), ?_, ?_,
      reads_slot make (ends corrupt) reads⟩
    · rw [encodeSlot, List.append_nil]
    · simp only [List.length_append, length_leBytes, List.length_cons, slot.property,
        List.length_nil]
      omega
  have pages {make : UInt32 → Buf pageSize → Option UInt64 → WalRecord} {tag : UInt8}
      {lsn : UInt64} {page : UInt32} {data : Buf pageSize} {truncated corrupt : String}
      (reads : ∀ payload, decodeBody tag lsn payload = do
        let (page, data) ← decodePage payload truncated
        let txn ← decodeOptTxnId (payload.drop (4 + pageSize)) corrupt
        return make page data txn) :
      ∃ tag' lsn' payload, encodePage tag lsn page data =
          tag' :: (leBytes 8 (UInt64.toNat lsn') ++ payload) ∧ payload.length ≤ 4 + pageSize + 9 ∧
        decodeBody tag' lsn' payload = .ok (make page data none) := by
    refine ⟨tag, lsn, leBytes 4 page.toNat ++ (data.val ++ []), ?_, ?_,
      reads_page make (ends corrupt) reads⟩
    · rw [encodePage, List.append_nil]
    · simp only [List.length_append, length_leBytes, data.property, List.length_nil]
      omega
  have tombstones {make : UInt64 → Option UInt64 → WalRecord} {tag : UInt8} {lsn id : UInt64}
      {truncated corrupt : String} (reads : ∀ payload, decodeBody tag lsn payload = do
        let id ← decodeId payload truncated
        let txn ← decodeOptTxnId (payload.drop 8) corrupt
        return make id txn) :
      ∃ tag' lsn' payload, encodeId tag lsn id =
          tag' :: (leBytes 8 (UInt64.toNat lsn') ++ payload) ∧ payload.length ≤ 4 + pageSize + 9 ∧
        decodeBody tag' lsn' payload = .ok (make id none) := by
    refine ⟨tag, lsn, leBytes 8 id.toNat ++ [], ?_, ?_, reads_tombstone make (ends corrupt) reads⟩
    · rw [encodeId, List.append_nil]
    · simp only [List.length_append, length_leBytes, List.length_nil]
      omega
  cases record with
  | writeNode lsn page slotIdx slot txn =>
    obtain rfl := some.inj isLegacy
    exact slots fun _ => rfl
  | writeEdge lsn page slotIdx slot txn =>
    obtain rfl := some.inj isLegacy
    exact slots fun _ => rfl
  | tombstoneNode lsn node txn =>
    obtain rfl := some.inj isLegacy
    exact tombstones fun _ => rfl
  | tombstoneEdge lsn edge txn =>
    obtain rfl := some.inj isLegacy
    exact tombstones fun _ => rfl
  | writeAdjPage lsn page data txn =>
    obtain rfl := some.inj isLegacy
    exact pages fun _ => rfl
  | writeStringPage lsn page data txn =>
    obtain rfl := some.inj isLegacy
    exact pages fun _ => rfl
  | writeOverflowPage lsn page data txn =>
    obtain rfl := some.inj isLegacy
    exact pages fun _ => rfl
  | checkpoint | begin | commit | rollback | freeListState => cases isLegacy

theorem decode_legacy (crc : List UInt8 → UInt32) (isLegacy : legacyBody record = some content)
    (rest : List UInt8) :
    decode crc (frame crc content ++ rest) =
      .ok (withoutTxn record, (frame crc content).length) := by
  obtain ⟨tag, lsn, payload, rfl, short, reads⟩ := exists_legacy isLegacy
  rw [decode_frame short, reads]
  rfl

end RoundTrip

end ErmyaGraph.WalCodec
