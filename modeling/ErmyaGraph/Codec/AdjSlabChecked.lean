import ErmyaGraph.Codec.AdjSlab
import ErmyaGraph.Lib.Checked

/-! # Where an adjacency page could stop the program

The operations of a shared adjacency page with every index, slice and
subtraction of the payload checked. Whatever the bytes of the page, none of them
fails: the operations are those without the checks. -/

namespace ErmyaGraph.AdjSlabCodec

open Bytes Checked

namespace Guarded

open Store

def load (mem : Memory) (start width : Nat) : Attempt Error Nat :=
  readWithin pagePayloadSize mem start width

def store (mem : Memory) (start width n : Nat) : Attempt Error Memory :=
  writeWithin pagePayloadSize mem start width n

def storeBytes (mem : Memory) (start : Nat) (data : List UInt8) : Attempt Error Memory :=
  spliceWithin pagePayloadSize mem start data

/-- Edges stored one after the other. -/
def writeEdges (mem : Memory) (offset : Nat) : List Nat → Attempt Error Memory
  | [] => .ok mem
  | edge :: rest => do
      let mem ← store mem offset 8 edge
      writeEdges mem (offset + 8) rest

/-- Edges read one after the other. -/
def readEdges (mem : Memory) (offset : Nat) : (count : Nat) → Attempt Error (List Nat)
  | 0 => .ok []
  | count + 1 => do
      let edge ← load mem offset 8
      let rest ← readEdges mem (offset + 8) count
      return edge :: rest

def readDirTotalCount (page : PageId) (mem : Memory) : Attempt Error Nat := do
  let count ← load mem 0 2
  if pagePayloadSize < directoryAreaEnd count then
    .error (.error (adjCorrupt page "slab directory_count exceeds page capacity"))
  else .ok count

def readDirEntry (page : PageId) (mem : Memory) (index total : Nat) :
    Attempt Error (Option (UInt8 × DirEntry)) :=
  if total ≤ index then .ok none
  else do
    let base := entryAt index
    let node ← load mem base 8
    let state ← byteWithin pagePayloadSize mem (base + 8)
    let offset ← load mem (base + 10) 2
    let edgeCount ← load mem (base + 12) 2
    if pagePayloadSize < offset + edgeCount * adjEdgeSize then
      .error (.error (adjCorrupt page "slab sub-block range exceeds page capacity"))
    else if state = stateByte none ∨ state = stateByte (some .outgoing) ∨
        state = stateByte (some .incoming) then
      .ok (some (state, ⟨node, offset, edgeCount⟩))
    else .error (.error (adjCorrupt page "invalid slab sub-block direction"))

def findFrom (page : PageId) (mem : Memory) (node : Nat) (direction : AdjDirection) (total : Nat) :
    (fuel : Nat) → Nat → Attempt Error (Option (Nat × DirEntry))
  | 0, _ => .ok none
  | fuel + 1, index => do
      match ← readDirEntry page mem index total with
      | none => .ok none
      | some (state, entry) =>
        if state = stateByte (some direction) ∧ entry.node = node then .ok (some (index, entry))
        else findFrom page mem node direction total fuel (index + 1)

def findLiveEntry (page : PageId) (mem : Memory) (node : Nat) (direction : AdjDirection) :
    Attempt Error (Option (Nat × DirEntry)) := do
  let total ← readDirTotalCount page mem
  findFrom page mem node direction total total 0

def lowWaterFrom (page : PageId) (mem : Memory) (total : Nat) :
    (fuel : Nat) → Nat → Nat → Attempt Error Nat
  | 0, _, low => .ok low
  | fuel + 1, index, low => do
      match ← readDirEntry page mem index total with
      | none => .ok low
      | some (state, entry) =>
        lowWaterFrom page mem total fuel (index + 1)
          (if state = stateByte none then low else min low entry.offset)

def subblocksBytesUsed (page : PageId) (mem : Memory) : Attempt Error Nat := do
  let total ← readDirTotalCount page mem
  let low ← lowWaterFrom page mem total total 0 pagePayloadSize
  minus pagePayloadSize low

def directoryBytesUsed (page : PageId) (mem : Memory) : Attempt Error Nat := do
  let total ← readDirTotalCount page mem
  minus (directoryAreaEnd total) adjDirCountSize

def slabFreeSpace (page : PageId) (mem : Memory) : Attempt Error Nat := do
  let directory ← directoryBytesUsed page mem
  let used ← subblocksBytesUsed page mem
  if directory + used ≤ pagePayloadSize then
    return pagePayloadSize - directory - used
  else throw (.error (adjCorrupt page "slab directory + sub-block usage exceeds page capacity"))

def slabCanFitSubblock (page : PageId) (mem : Memory) (edgeCount : Nat) : Attempt Error Bool := do
  let free ← slabFreeSpace page mem
  return decide (subblockBytesNeeded edgeCount < free)

def writeDirEntry (mem : Memory) (index node : Nat) (direction : AdjDirection)
    (offset edgeCount : Nat) : Attempt Error Memory := do
  let base := entryAt index
  let mem ← store mem base 8 node
  let mem ← storeBytes mem (base + 8) [stateByte (some direction), 0]
  let mem ← store mem (base + 10) 2 offset
  store mem (base + 12) 2 edgeCount

def writeSubblock (page : PageId) (mem : Memory) (node : Nat) (direction : AdjDirection)
    (edges : List Nat) : Attempt Error Memory := do
  if (← findLiveEntry page mem node direction).isSome then
    throw (.error (adjCorrupt page "slab sub-block already exists for (node_id, direction)"))
  if (← slabFreeSpace page mem) < subblockBytesNeeded edges.length then
    throw (.error (adjCorrupt page "slab page has insufficient free space for new sub-block"))
  let total ← readDirTotalCount page mem
  let used ← subblocksBytesUsed page mem
  if pagePayloadSize < used + edges.length * adjEdgeSize then
    throw (.error (adjCorrupt page "slab sub-block offset underflow"))
  let offset := pagePayloadSize - used - edges.length * adjEdgeSize
  if 2 ^ 16 ≤ total + 1 then
    throw (.error (adjCorrupt page "slab directory_count overflow"))
  if offset < directoryAreaEnd (total + 1) then
    throw (.error (adjCorrupt page "slab directory has no room for a new entry"))
  if 2 ^ 16 ≤ offset then
    throw (.error (adjCorrupt page "slab sub-block offset overflow"))
  if 2 ^ 16 ≤ edges.length then
    throw (.error (adjCorrupt page "slab sub-block edge_count overflow"))
  let mem ← writeDirEntry mem total node direction offset edges.length
  let mem ← store mem 0 2 (total + 1)
  writeEdges mem offset edges

def readSubblock (page : PageId) (mem : Memory) (node : Nat) (direction : AdjDirection) :
    Attempt Error (List Nat) := do
  match ← findLiveEntry page mem node direction with
  | none => throw (.error (noLiveSubblock page))
  | some (_, entry) => readEdges mem entry.offset entry.edgeCount

def appendSubblockEdges (page : PageId) (mem : Memory) (node : Nat) (direction : AdjDirection)
    (added : List Nat) : Attempt Error (Option Memory) := do
  match ← findLiveEntry page mem node direction with
  | none => throw (.error (noLiveSubblock page))
  | some (index, entry) =>
    let used ← subblocksBytesUsed page mem
    if entry.offset ≠ pagePayloadSize - used then
      return none
    let needed := added.length * adjEdgeSize
    if (← slabFreeSpace page mem) < needed then
      return none
    let old := entry.edgeCount * adjEdgeSize
    let edgeCount := entry.edgeCount + added.length
    if 2 ^ 16 ≤ edgeCount then
      throw (.error (adjCorrupt page "slab sub-block edge_count overflow"))
    if entry.offset < needed then
      throw (.error (adjCorrupt page "slab sub-block offset underflow on append"))
    let offset := entry.offset - needed
    if 2 ^ 16 ≤ offset then
      throw (.error (adjCorrupt page "slab sub-block offset overflow"))
    let total ← readDirTotalCount page mem
    if offset < directoryAreaEnd total then
      return none
    if pagePayloadSize < entry.offset + old then
      throw (.error (adjCorrupt page "slab sub-block copy source range exceeds page capacity"))
    let moved ← copyWithin pagePayloadSize mem entry.offset old offset
    let filled ← writeEdges moved (offset + old) added
    let written ← writeDirEntry filled index node direction offset edgeCount
    return some written

def freeSubblock (page : PageId) (mem : Memory) (node : Nat) (direction : AdjDirection) :
    Attempt Error Memory := do
  match ← findLiveEntry page mem node direction with
  | none => throw (.error (noLiveSubblock page))
  | some (index, _) =>
    let mem ← storeBytes mem (entryAt index + 8) [stateByte none]
    let mem ← store mem (entryAt index + 10) 2 0
    store mem (entryAt index + 12) 2 0

def rewriteSubblockEdges (page : PageId) (mem : Memory) (node : Nat) (direction : AdjDirection)
    (edges : List Nat) : Attempt Error Memory := do
  match ← findLiveEntry page mem node direction with
  | none => throw (.error (noLiveSubblock page))
  | some (index, entry) =>
    if 2 ^ 16 ≤ edges.length then
      throw (.error (adjCorrupt page "slab sub-block edge count overflow"))
    if entry.edgeCount < edges.length then
      throw (.error (adjCorrupt page
        "rewrite_subblock_edges cannot grow a sub-block; use append_subblock_edges"))
    let mem ← writeEdges mem entry.offset edges
    writeDirEntry mem index node direction entry.offset edges.length

section Access

variable {mem : Memory} {offset : Nat}

theorem load_of {start width : Nat} (inside : start + width ≤ pagePayloadSize) :
    load mem start width = .ok (readLe mem start width) := demand_of inside

theorem store_of {start width n : Nat} (inside : start + width ≤ pagePayloadSize) :
    store mem start width n = .ok (writeLe mem start width n) := demand_of inside

theorem writeEdges_eq {edges : List Nat}
    (inside : offset + edges.length * adjEdgeSize ≤ pagePayloadSize) :
    writeEdges mem offset edges = .ok (splice mem offset (wordBytes edges)) := by
  induction edges generalizing mem offset with
  | nil =>
    have empty : splice mem offset (wordBytes []) = mem :=
      funext fun i => splice_outside (Nat.lt_or_ge i offset)
    rw [empty]
    rfl
  | cons edge rest ih =>
    have inside : offset + (rest.length + 1) * 8 ≤ pagePayloadSize := inside
    have later : offset + 8 + rest.length * adjEdgeSize ≤ pagePayloadSize := by
      rw [adjEdgeSize]
      omega
    have bytes : wordBytes (edge :: rest) = leBytes 8 edge ++ wordBytes rest := List.flatMap_cons
    rw [writeEdges, store_of (by omega), bytes, splice_append, length_leBytes]
    exact ih later

theorem readEdges_eq {count : Nat} (inside : offset + count * adjEdgeSize ≤ pagePayloadSize) :
    readEdges mem offset count = .ok (readWords mem offset count) := by
  induction count generalizing offset with
  | zero => rfl
  | succ count ih =>
    have inside : offset + (count + 1) * 8 ≤ pagePayloadSize := inside
    have later : offset + 8 + count * adjEdgeSize ≤ pagePayloadSize := by
      rw [adjEdgeSize]
      omega
    rw [readEdges, load_of (by omega), readWords_succ]
    simp only [bind, Except.bind, ih later]
    rfl

end Access

section Directory

variable {page : PageId} {mem : Memory} {node total index : Nat} {direction : AdjDirection}

theorem readDirTotalCount_eq :
    readDirTotalCount page mem = attempt (AdjSlabCodec.readDirTotalCount page mem) := by
  rw [readDirTotalCount, load_of (by decide)]
  exact eq_attempt_ite (fun _ => rfl) fun _ => rfl

theorem room_of_readDirTotalCount (read : AdjSlabCodec.readDirTotalCount page mem = .ok total) :
    directoryAreaEnd total ≤ pagePayloadSize := by
  unfold AdjSlabCodec.readDirTotalCount at read
  split at read
  · cases read
  · next fits =>
      cases read
      exact Nat.le_of_not_lt fits

section

variable (room : directoryAreaEnd total ≤ pagePayloadSize)
include room

theorem entryAt_inside (counted : index < total) : entryAt index + 14 ≤ pagePayloadSize := by
  have ends : entryAt index + 14 = directoryAreaEnd (index + 1) := by
    simp only [entryAt, directoryAreaEnd, adjDirEntrySize, Nat.add_mul]
    omega
  have mono : directoryAreaEnd (index + 1) ≤ directoryAreaEnd total :=
    Nat.add_le_add_left (Nat.mul_le_mul_right _ counted) _
  omega

theorem readDirEntry_eq : readDirEntry page mem index total =
      attempt (AdjSlabCodec.readDirEntry page mem index total) := by
  refine eq_attempt_ite (fun _ => rfl) fun counted => ?_
  have inside := entryAt_inside room (Nat.lt_of_not_le counted)
  have state : (byteWithin pagePayloadSize mem (entryAt index + 8) : Attempt Error UInt8) =
      .ok (mem (entryAt index + 8)) := demand_of (by omega)
  simp only [load_of (show entryAt index + 8 ≤ _ by omega), state,
    load_of (show entryAt index + 10 + 2 ≤ _ by omega),
    load_of (show entryAt index + 12 + 2 ≤ _ by omega), bind, Except.bind]
  exact eq_attempt_ite (fun _ => rfl) fun _ => eq_attempt_ite (fun _ => rfl) fun _ => rfl

theorem findFrom_eq (fuel : Nat) : findFrom page mem node direction total fuel index =
      attempt (AdjSlabCodec.findFrom page mem node direction total fuel index) := by
  induction fuel generalizing index with
  | zero => rfl
  | succ fuel ih =>
    refine eq_attempt_bind (readDirEntry_eq room) fun entry _ => ?_
    cases entry with
    | none => rfl
    | some entry => exact eq_attempt_ite (fun _ => rfl) fun _ => ih

end

theorem findLiveEntry_eq :
    findLiveEntry page mem node direction =
      attempt (AdjSlabCodec.findLiveEntry page mem node direction) :=
  eq_attempt_bind readDirTotalCount_eq fun total read =>
    findFrom_eq (room_of_readDirTotalCount read) total

theorem lowWaterFrom_eq (room : directoryAreaEnd total ≤ pagePayloadSize) (fuel low : Nat) :
    lowWaterFrom page mem total fuel index low =
      attempt (AdjSlabCodec.lowWaterFrom page mem total fuel index low) := by
  induction fuel generalizing index low with
  | zero => rfl
  | succ fuel ih =>
    refine eq_attempt_bind (readDirEntry_eq room) fun entry _ => ?_
    cases entry with
    | none => rfl
    | some entry => exact ih _

theorem lowWaterFrom_le {fuel low mark : Nat}
    (read : AdjSlabCodec.lowWaterFrom page mem total fuel index low = .ok mark) : mark ≤ low := by
  induction fuel generalizing index low with
  | zero =>
    cases read
    exact Nat.le_refl _
  | succ fuel ih =>
    obtain ⟨entry, _, read⟩ := Outcome.ok_of_bind read
    cases entry with
    | none =>
      cases read
      exact Nat.le_refl _
    | some entry =>
      refine Nat.le_trans (ih read) ?_
      split
      · exact Nat.le_refl _
      · exact Nat.min_le_left _ _

theorem subblocksBytesUsed_eq :
    subblocksBytesUsed page mem = attempt (AdjSlabCodec.subblocksBytesUsed page mem) := by
  refine eq_attempt_bind readDirTotalCount_eq fun total read => ?_
  have room := room_of_readDirTotalCount read
  refine eq_attempt_bind (lowWaterFrom_eq room _ _) fun low scanned => ?_
  exact demand_of (lowWaterFrom_le scanned)

theorem directoryBytesUsed_eq :
    directoryBytesUsed page mem = attempt (AdjSlabCodec.directoryBytesUsed page mem) :=
  eq_attempt_bind readDirTotalCount_eq fun _ _ => demand_of (Nat.le_add_right _ _)

theorem slabFreeSpace_eq : slabFreeSpace page mem = attempt (AdjSlabCodec.slabFreeSpace page mem) :=
  eq_attempt_bind directoryBytesUsed_eq fun _ _ =>
    eq_attempt_bind subblocksBytesUsed_eq fun _ _ => eq_attempt_ite (fun _ => rfl) fun _ => rfl

theorem slabCanFitSubblock_eq {edgeCount : Nat} :
    slabCanFitSubblock page mem edgeCount =
      attempt (AdjSlabCodec.slabCanFitSubblock page mem edgeCount) :=
  eq_attempt_bind slabFreeSpace_eq fun _ _ => rfl

theorem writeDirEntry_eq {offset edgeCount : Nat} (inside : entryAt index + 14 ≤ pagePayloadSize) :
    writeDirEntry mem index node direction offset edgeCount =
      .ok (AdjSlabCodec.writeDirEntry mem index node direction offset edgeCount) := by
  have two : [stateByte (some direction), (0 : UInt8)].length = 2 := rfl
  simp only [writeDirEntry, store, storeBytes, writeWithin, spliceWithin]
  rw [demand_bind (by omega), demand_bind (by omega), demand_bind (by omega), demand_of (by omega)]
  rfl

variable {found : Nat × DirEntry}

theorem findFrom_inside {fuel : Nat}
    (find : AdjSlabCodec.findFrom page mem node direction total fuel index = .ok (some found)) :
    found.1 < total ∧ found.2.offset + found.2.edgeCount * adjEdgeSize ≤ pagePayloadSize := by
  induction fuel generalizing index with
  | zero => cases find
  | succ fuel ih =>
    obtain ⟨entry, read, find⟩ := Outcome.ok_of_bind find
    cases entry with
    | none => cases find
    | some entry =>
      by_cases wanted : entry.1 = stateByte (some direction) ∧ entry.2.node = node
      · simp only [if_pos wanted] at find
        cases find
        unfold AdjSlabCodec.readDirEntry at read
        split at read
        · cases read
        · next counted =>
            dsimp only at read
            split at read
            · cases read
            · next fits =>
                split at read
                · cases read
                  exact ⟨Nat.lt_of_not_le counted, Nat.le_of_not_lt fits⟩
                · cases read
      · simp only [if_neg wanted] at find
        exact ih find

theorem findLiveEntry_inside
    (find : AdjSlabCodec.findLiveEntry page mem node direction = .ok (some found)) :
    entryAt found.1 + 14 ≤ pagePayloadSize ∧
      found.2.offset + found.2.edgeCount * adjEdgeSize ≤ pagePayloadSize := by
  obtain ⟨total, read, find⟩ := Outcome.ok_of_bind find
  obtain ⟨counted, fits⟩ := findFrom_inside find
  exact ⟨entryAt_inside (room_of_readDirTotalCount read) counted, fits⟩

end Directory

section Operations

variable {page : PageId} {mem : Memory} {node : Nat} {direction : AdjDirection} {edges : List Nat}

theorem readSubblock_eq :
    readSubblock page mem node direction =
      attempt (AdjSlabCodec.readSubblock page mem node direction) := by
  refine eq_attempt_bind findLiveEntry_eq fun found find => ?_
  cases found with
  | none => rfl
  | some found => exact readEdges_eq (findLiveEntry_inside find).2

theorem writeSubblock_eq :
    writeSubblock page mem node direction edges =
      attempt (AdjSlabCodec.writeSubblock page mem node direction edges) := by
  refine eq_attempt_bind findLiveEntry_eq fun found _ => ?_
  refine eq_attempt_guard fun _ => ?_
  refine eq_attempt_bind slabFreeSpace_eq fun free _ => ?_
  refine eq_attempt_guard fun _ => ?_
  refine eq_attempt_bind readDirTotalCount_eq fun total _ => ?_
  refine eq_attempt_bind subblocksBytesUsed_eq fun used _ => ?_
  refine eq_attempt_guard fun fits => eq_attempt_guard fun _ => eq_attempt_guard fun behind => ?_
  refine eq_attempt_guard fun _ => eq_attempt_guard fun _ => ?_
  -- The new entry ends where the edges begin, at the latest.
  have ends : entryAt total + 14 = directoryAreaEnd (total + 1) := by
    simp only [entryAt, directoryAreaEnd, adjDirEntrySize, Nat.add_mul]
    omega
  simp only [writeDirEntry_eq (show entryAt total + 14 ≤ pagePayloadSize by omega), bind,
    Except.bind, store_of (show 0 + 2 ≤ pagePayloadSize by decide)]
  exact writeEdges_eq (by omega)

theorem appendSubblockEdges_eq :
    appendSubblockEdges page mem node direction edges =
      attempt (AdjSlabCodec.appendSubblockEdges page mem node direction edges) := by
  refine eq_attempt_bind findLiveEntry_eq fun found find => ?_
  cases found with
  | none => rfl
  | some found =>
    obtain ⟨entryInside, inside⟩ := findLiveEntry_inside find
    refine eq_attempt_bind subblocksBytesUsed_eq fun used _ => ?_
    refine eq_attempt_ite (fun _ => rfl) fun _ => ?_
    refine eq_attempt_bind slabFreeSpace_eq fun free _ => ?_
    refine eq_attempt_ite (fun _ => rfl) fun _ => ?_
    refine eq_attempt_guard fun _ => eq_attempt_guard fun above => eq_attempt_guard fun _ => ?_
    refine eq_attempt_bind readDirTotalCount_eq fun total _ => ?_
    refine eq_attempt_ite (fun _ => rfl) fun _ => eq_attempt_guard fun _ => ?_
    -- The moved edges and the new ones end where the old ones did.
    have ends : found.2.offset - edges.length * adjEdgeSize + found.2.edgeCount * adjEdgeSize +
        edges.length * adjEdgeSize ≤ pagePayloadSize := by omega
    have moved : (copyWithin pagePayloadSize mem found.2.offset (found.2.edgeCount * adjEdgeSize)
        (found.2.offset - edges.length * adjEdgeSize) : Attempt Error Memory) =
        .ok (splice mem _ (slice mem found.2.offset (found.2.edgeCount * adjEdgeSize))) :=
      demand_of ⟨inside, by omega⟩
    simp only [moved, bind, Except.bind, writeEdges_eq ends, writeDirEntry_eq entryInside]
    rfl

theorem freeSubblock_eq :
    freeSubblock page mem node direction =
      attempt (AdjSlabCodec.freeSubblock page mem node direction) := by
  refine eq_attempt_bind findLiveEntry_eq fun found find => ?_
  cases found with
  | none => rfl
  | some found =>
    obtain ⟨inside, _⟩ := findLiveEntry_inside find
    have one : [stateByte none].length = 1 := rfl
    simp only [store, storeBytes, writeWithin, spliceWithin]
    rw [demand_bind (by omega), demand_bind (by omega), demand_of (by omega)]
    rfl

theorem rewriteSubblockEdges_eq :
    rewriteSubblockEdges page mem node direction edges =
      attempt (AdjSlabCodec.rewriteSubblockEdges page mem node direction edges) := by
  refine eq_attempt_bind findLiveEntry_eq fun found find => ?_
  cases found with
  | none => rfl
  | some found =>
    obtain ⟨entryInside, inside⟩ := findLiveEntry_inside find
    refine eq_attempt_guard fun _ => eq_attempt_guard fun shorter => ?_
    have fewer : edges.length * adjEdgeSize ≤ found.2.edgeCount * adjEdgeSize :=
      Nat.mul_le_mul_right _ (Nat.le_of_not_lt shorter)
    simp only [bind, Except.bind, writeEdges_eq
      (show found.2.offset + edges.length * adjEdgeSize ≤ pagePayloadSize by omega),
      writeDirEntry_eq entryInside]
    rfl

end Operations

/-- Whatever the bytes of a shared adjacency page, its operations return a value or an error:
they are the operations without the checks. -/
theorem operations_are_safe (page : PageId) (mem : Memory) (node : Nat)
    (direction : AdjDirection) (edges : List Nat) (edgeCount : Nat) :
    (Calm (readSubblock page mem node direction) ∧
      Calm (writeSubblock page mem node direction edges) ∧
      Calm (appendSubblockEdges page mem node direction edges) ∧
      Calm (rewriteSubblockEdges page mem node direction edges) ∧
      Calm (freeSubblock page mem node direction) ∧
      Calm (slabCanFitSubblock page mem edgeCount)) ∧
    readSubblock page mem node direction =
        attempt (AdjSlabCodec.readSubblock page mem node direction) ∧
      writeSubblock page mem node direction edges =
        attempt (AdjSlabCodec.writeSubblock page mem node direction edges) ∧
      appendSubblockEdges page mem node direction edges =
        attempt (AdjSlabCodec.appendSubblockEdges page mem node direction edges) ∧
      rewriteSubblockEdges page mem node direction edges =
        attempt (AdjSlabCodec.rewriteSubblockEdges page mem node direction edges) ∧
      freeSubblock page mem node direction =
        attempt (AdjSlabCodec.freeSubblock page mem node direction) ∧
      slabCanFitSubblock page mem edgeCount =
        attempt (AdjSlabCodec.slabCanFitSubblock page mem edgeCount) := by
  refine ⟨⟨?_, ?_, ?_, ?_, ?_, ?_⟩, readSubblock_eq, writeSubblock_eq, appendSubblockEdges_eq,
    rewriteSubblockEdges_eq, freeSubblock_eq, slabCanFitSubblock_eq⟩
  · exact calm_of_eq_attempt readSubblock_eq
  · exact calm_of_eq_attempt writeSubblock_eq
  · exact calm_of_eq_attempt appendSubblockEdges_eq
  · exact calm_of_eq_attempt rewriteSubblockEdges_eq
  · exact calm_of_eq_attempt freeSubblock_eq
  · exact calm_of_eq_attempt slabCanFitSubblock_eq

end Guarded

end ErmyaGraph.AdjSlabCodec
