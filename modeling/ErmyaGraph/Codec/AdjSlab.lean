import ErmyaGraph.Lib.Memory
import ErmyaGraph.Storage.Adjacency

/-! # The bytes of a shared adjacency page

A directory of sub-blocks grows from the start of the payload and the packed
edges grow from its end. Every operation works on the bytes of one page and
hands over the page to write back. -/

namespace ErmyaGraph.AdjSlabCodec

open Bytes

open Store

/-- The state byte of a directory entry; a freed one has no direction. -/
def stateByte : Option AdjDirection → UInt8
  | some .outgoing => 0
  | some .incoming => 1
  | none => 0xFF

theorem stateByte_inj {left right : Option AdjDirection}
    (same : stateByte left = stateByte right) : left = right := by
  cases left with
  | none =>
    cases right with
    | none => rfl
    | some direction => cases direction <;> exact absurd same (by decide)
  | some direction =>
    cases right with
    | none => cases direction <;> exact absurd same (by decide)
    | some other => cases direction <;> cases other <;> first | rfl | exact absurd same (by decide)

/-- The fields of a directory entry besides its state byte. -/
structure DirEntry where
  node : Nat
  offset : Nat
  edgeCount : Nat

def entryAt (index : Nat) : Nat := adjDirCountSize + index * adjDirEntrySize

def readDirTotalCount (page : PageId) (mem : Memory) : Except Error Nat :=
  if pagePayloadSize < directoryAreaEnd (readLe mem 0 2) then
    .error (adjCorrupt page "slab directory_count exceeds page capacity")
  else .ok (readLe mem 0 2)

def readDirEntry (page : PageId) (mem : Memory) (index total : Nat) :
    Except Error (Option (UInt8 × DirEntry)) :=
  if total ≤ index then .ok none
  else
    let base := entryAt index
    let entry : DirEntry := ⟨readLe mem base 8, readLe mem (base + 10) 2, readLe mem (base + 12) 2⟩
    if pagePayloadSize < entry.offset + entry.edgeCount * adjEdgeSize then
      .error (adjCorrupt page "slab sub-block range exceeds page capacity")
    else if mem (base + 8) = stateByte none ∨ mem (base + 8) = stateByte (some .outgoing) ∨
        mem (base + 8) = stateByte (some .incoming) then
      .ok (some (mem (base + 8), entry))
    else .error (adjCorrupt page "invalid slab sub-block direction")

/-- Search the directory from an index on. -/
def findFrom (page : PageId) (mem : Memory) (node : Nat) (direction : AdjDirection) (total : Nat) :
    (fuel : Nat) → Nat → Except Error (Option (Nat × DirEntry))
  | 0, _ => .ok none
  | fuel + 1, index => do
      match ← readDirEntry page mem index total with
      | none => .ok none
      | some (state, entry) =>
        if state = stateByte (some direction) ∧ entry.node = node then .ok (some (index, entry))
        else findFrom page mem node direction total fuel (index + 1)

def findLiveEntry (page : PageId) (mem : Memory) (node : Nat) (direction : AdjDirection) :
    Except Error (Option (Nat × DirEntry)) := do
  let total ← readDirTotalCount page mem
  findFrom page mem node direction total total 0

/-- The lowest offset of a live entry from an index on. -/
def lowWaterFrom (page : PageId) (mem : Memory) (total : Nat) :
    (fuel : Nat) → Nat → Nat → Except Error Nat
  | 0, _, low => .ok low
  | fuel + 1, index, low => do
      match ← readDirEntry page mem index total with
      | none => .ok low
      | some (state, entry) =>
        lowWaterFrom page mem total fuel (index + 1)
          (if state = stateByte none then low else min low entry.offset)

def subblocksBytesUsed (page : PageId) (mem : Memory) : Except Error Nat := do
  let total ← readDirTotalCount page mem
  let low ← lowWaterFrom page mem total total 0 pagePayloadSize
  return pagePayloadSize - low

def directoryBytesUsed (page : PageId) (mem : Memory) : Except Error Nat := do
  let total ← readDirTotalCount page mem
  return directoryAreaEnd total - adjDirCountSize

def slabFreeSpace (page : PageId) (mem : Memory) : Except Error Nat := do
  let directory ← directoryBytesUsed page mem
  let used ← subblocksBytesUsed page mem
  if directory + used ≤ pagePayloadSize then
    return pagePayloadSize - directory - used
  else throw (adjCorrupt page "slab directory + sub-block usage exceeds page capacity")

def slabCanFitSubblock (page : PageId) (mem : Memory) (edgeCount : Nat) : Except Error Bool := do
  let free ← slabFreeSpace page mem
  return decide (subblockBytesNeeded edgeCount < free)

def writeDirEntry (mem : Memory) (index node : Nat) (direction : AdjDirection)
    (offset edgeCount : Nat) : Memory :=
  let base := entryAt index
  let mem := writeLe mem base 8 node
  let mem := splice mem (base + 8) [stateByte (some direction), 0]
  let mem := writeLe mem (base + 10) 2 offset
  writeLe mem (base + 12) 2 edgeCount

/-- Start the sub-block of a node and direction. -/
def writeSubblock (page : PageId) (mem : Memory) (node : Nat) (direction : AdjDirection)
    (edges : List Nat) : Except Error Memory := do
  if (← findLiveEntry page mem node direction).isSome then
    throw (adjCorrupt page "slab sub-block already exists for (node_id, direction)")
  if (← slabFreeSpace page mem) < subblockBytesNeeded edges.length then
    throw (adjCorrupt page "slab page has insufficient free space for new sub-block")
  let total ← readDirTotalCount page mem
  let used ← subblocksBytesUsed page mem
  if pagePayloadSize < used + edges.length * adjEdgeSize then
    throw (adjCorrupt page "slab sub-block offset underflow")
  let offset := pagePayloadSize - used - edges.length * adjEdgeSize
  if 2 ^ 16 ≤ total + 1 then
    throw (adjCorrupt page "slab directory_count overflow")
  if offset < directoryAreaEnd (total + 1) then
    throw (adjCorrupt page "slab directory has no room for a new entry")
  if 2 ^ 16 ≤ offset then
    throw (adjCorrupt page "slab sub-block offset overflow")
  if 2 ^ 16 ≤ edges.length then
    throw (adjCorrupt page "slab sub-block edge_count overflow")
  let mem := writeDirEntry mem total node direction offset edges.length
  let mem := writeLe mem 0 2 (total + 1)
  return splice mem offset (wordBytes edges)

def readSubblock (page : PageId) (mem : Memory) (node : Nat) (direction : AdjDirection) :
    Except Error (List Nat) := do
  match ← findLiveEntry page mem node direction with
  | none => throw (noLiveSubblock page)
  | some (_, entry) => return readWords mem entry.offset entry.edgeCount

/-- Grow a sub-block in place, if it is the lowest one and there is room. -/
def appendSubblockEdges (page : PageId) (mem : Memory) (node : Nat) (direction : AdjDirection)
    (added : List Nat) : Except Error (Option Memory) := do
  match ← findLiveEntry page mem node direction with
  | none => throw (noLiveSubblock page)
  | some (index, entry) =>
    let used ← subblocksBytesUsed page mem
    if entry.offset ≠ pagePayloadSize - used then
      return none
    let needed := added.length * adjEdgeSize
    if (← slabFreeSpace page mem) < needed then
      return none
    let old := entry.edgeCount * adjEdgeSize
    let edgeCount := entry.edgeCount + added.length
    if 2 ^ 16 ≤ edgeCount then
      throw (adjCorrupt page "slab sub-block edge_count overflow")
    if entry.offset < needed then
      throw (adjCorrupt page "slab sub-block offset underflow on append")
    let offset := entry.offset - needed
    if 2 ^ 16 ≤ offset then
      throw (adjCorrupt page "slab sub-block offset overflow")
    let total ← readDirTotalCount page mem
    if offset < directoryAreaEnd total then
      return none
    if pagePayloadSize < entry.offset + old then
      throw (adjCorrupt page "slab sub-block copy source range exceeds page capacity")
    let moved := splice mem offset (slice mem entry.offset old)
    let filled := splice moved (offset + old) (wordBytes added)
    return some (writeDirEntry filled index node direction offset edgeCount)

/-- Mark a sub-block as freed and clear its footprint. -/
def freeSubblock (page : PageId) (mem : Memory) (node : Nat) (direction : AdjDirection) :
    Except Error Memory := do
  match ← findLiveEntry page mem node direction with
  | none => throw (noLiveSubblock page)
  | some (index, _) =>
    let mem := splice mem (entryAt index + 8) [stateByte none]
    let mem := writeLe mem (entryAt index + 10) 2 0
    return writeLe mem (entryAt index + 12) 2 0

/-- Replace the edges of a sub-block by no more than it holds. -/
def rewriteSubblockEdges (page : PageId) (mem : Memory) (node : Nat) (direction : AdjDirection)
    (edges : List Nat) : Except Error Memory := do
  match ← findLiveEntry page mem node direction with
  | none => throw (noLiveSubblock page)
  | some (index, entry) =>
    if 2 ^ 16 ≤ edges.length then
      throw (adjCorrupt page "slab sub-block edge count overflow")
    if entry.edgeCount < edges.length then
      throw (adjCorrupt page
        "rewrite_subblock_edges cannot grow a sub-block; use append_subblock_edges")
    let mem := splice mem entry.offset (wordBytes edges)
    return writeDirEntry mem index node direction entry.offset edges.length

end ErmyaGraph.AdjSlabCodec
