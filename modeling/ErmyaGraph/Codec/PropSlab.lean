import ErmyaGraph.Lib.Memory
import ErmyaGraph.Storage.Overflow

/-! # The bytes of a packed property page

A directory of blobs grows from the start of the payload and the blobs grow from
its end. A write that runs out of room sweeps the freed entries away first. -/

namespace ErmyaGraph.PropSlabCodec

open Bytes Store

/-- The kind byte of a directory entry; a freed one has no kind. -/
def kindByte : Option EntityKind → UInt8
  | some .node => 0
  | some .edge => 1
  | none => 0xFF

theorem kindByte_inj {left right : Option EntityKind} (same : kindByte left = kindByte right) :
    left = right := by
  cases left with
  | none =>
    cases right with
    | none => rfl
    | some kind => cases kind <;> exact absurd same (by decide)
  | some kind =>
    cases right with
    | none => cases kind <;> exact absurd same (by decide)
    | some other => cases kind <;> cases other <;> first | rfl | exact absurd same (by decide)

structure DirEntry where
  id : Nat
  kind : UInt8
  offset : Nat
  len : Nat

def entryAt (index : Nat) : Nat := slabDirCountSize + index * slabDirEntrySize

def readDirCount (mem : Memory) : Nat := readLe mem 0 2

def readDirEntry (mem : Memory) (index : Nat) : DirEntry :=
  let base := entryAt index
  ⟨readLe mem base 8, mem (base + 8), readLe mem (base + 10) 2, readLe mem (base + 12) 4⟩

def writeDirEntry (mem : Memory) (index : Nat) (entry : DirEntry) : Memory :=
  let base := entryAt index
  let mem := writeLe mem base 8 entry.id
  let mem := splice mem (base + 8) [entry.kind, 0]
  let mem := writeLe mem (base + 10) 2 entry.offset
  writeLe mem (base + 12) 4 entry.len

def DirEntry.isFor (key : EntityKey) (entry : DirEntry) : Prop :=
  entry.kind = kindByte (some key.kind) ∧ entry.id = key.id

instance (key : EntityKey) (entry : DirEntry) : Decidable (entry.isFor key) :=
  inferInstanceAs (Decidable (_ ∧ _))

/-- The lowest offset of an entry from an index on; freed entries keep their bytes reserved. -/
def lowWaterFrom (mem : Memory) : (fuel : Nat) → Nat → Nat → Nat
  | 0, _, low => low
  | fuel + 1, index, low =>
    lowWaterFrom mem fuel (index + 1)
      (if (readDirEntry mem index).offset < low then (readDirEntry mem index).offset else low)

def blobLowWater (mem : Memory) : Nat := lowWaterFrom mem (readDirCount mem) 0 pagePayloadSize

def freeSpace (mem : Memory) : Nat :=
  blobLowWater mem - (slabDirCountSize + readDirCount mem * slabDirEntrySize)

/-- The live entries from an index on, with their bytes. -/
def collectFrom (mem : Memory) : (fuel : Nat) → Nat → List (DirEntry × List UInt8)
  | 0, _ => []
  | fuel + 1, index =>
    let entry := readDirEntry mem index
    if entry.kind = kindByte none then collectFrom mem fuel (index + 1)
    else if entry.offset < slabDirCountSize ∨ pagePayloadSize < entry.offset + entry.len then
      collectFrom mem fuel (index + 1)
    else (entry, slice mem entry.offset entry.len) :: collectFrom mem fuel (index + 1)

/-- Lay entries out below an offset. -/
def layFrom (mem : Memory) : List (DirEntry × List UInt8) → Nat → Nat → Memory
  | [], _, _ => mem
  | (entry, bytes) :: rest, index, writeAt =>
    let offset := writeAt - bytes.length
    let mem := splice mem offset bytes
    layFrom (writeDirEntry mem index ⟨entry.id, entry.kind, offset, bytes.length⟩) rest
      (index + 1) offset

def compact (mem : Memory) : Memory :=
  let live := collectFrom mem (readDirCount mem) 0
  writeLe (layFrom (fun _ => 0) live 0 pagePayloadSize) 0 2 live.length

/-- Mark the entries of an entity as freed, from an index on. -/
def retireFrom (key : EntityKey) : (fuel : Nat) → Nat → Memory → Memory
  | 0, _, mem => mem
  | fuel + 1, index, mem =>
    retireFrom key fuel (index + 1)
      (if (readDirEntry mem index).isFor key then splice mem (entryAt index + 8) [kindByte none]
      else mem)

def writeBlob (mem : Memory) (key : EntityKey) (blob : List UInt8) : Except Error Memory :=
  let retired := retireFrom key (readDirCount mem) 0 mem
  let room :=
    if freeSpace retired < blob.length + slabDirEntrySize then compact retired else retired
  if freeSpace room < blob.length + slabDirEntrySize then .error (.recordTooLarge blob.length)
  else
    let count := readDirCount room
    let offset := blobLowWater room - blob.length
    let filled := splice room offset blob
    let listed := writeDirEntry filled count ⟨key.id, kindByte (some key.kind), offset, blob.length⟩
    .ok (writeLe listed 0 2 (count + 1))

/-- Search the directory from an index on. -/
def readFrom (page : PageId) (mem : Memory) (key : EntityKey) :
    (fuel : Nat) → Nat → Except Error (Option (List UInt8))
  | 0, _ => .ok none
  | fuel + 1, index =>
    let entry := readDirEntry mem index
    if entry.isFor key then
      if entry.offset < slabDirCountSize ∨ pagePayloadSize < entry.offset + entry.len then
        .error (.corruptPage "overflow.db" page "property slab entry points outside its page")
      else .ok (some (slice mem entry.offset entry.len))
    else readFrom page mem key fuel (index + 1)

def readBlob (page : PageId) (mem : Memory) (key : EntityKey) : Except Error (Option (List UInt8)) :=
  readFrom page mem key (readDirCount mem) 0

/-- The page, whether another entry is live, and whether an entry was freed. -/
structure Freed where
  mem : Memory
  anyLive : Bool := false
  changed : Bool := false

/-- Free the entries of an entity, from an index on. -/
def freeFrom (key : EntityKey) : (fuel : Nat) → Nat → Freed → Freed
  | 0, _, freed => freed
  | fuel + 1, index, freed =>
    let entry := readDirEntry freed.mem index
    freeFrom key fuel (index + 1)
      (if entry.kind = kindByte none then freed
      else if entry.isFor key then
        ⟨splice freed.mem (entryAt index + 8) [kindByte none], freed.anyLive, true⟩
      else ⟨freed.mem, true, freed.changed⟩)

/-- Free an entity's blob. The page is only written back if it changed. -/
def freeBlob (mem : Memory) (key : EntityKey) : Bool × Memory :=
  let freed := freeFrom key (readDirCount mem) 0 ⟨mem, false, false⟩
  (freed.anyLive, if freed.changed then freed.mem else mem)

end ErmyaGraph.PropSlabCodec
