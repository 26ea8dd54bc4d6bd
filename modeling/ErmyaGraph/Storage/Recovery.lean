import ErmyaGraph.Codec.WalReader
import ErmyaGraph.Storage.BufferPool

/-! # Recovery, page by page

The records of a journal are applied to the pages they name and to the metadata.
A record of one slot rewrites the page that holds it, which recovery first has to
read; a page it cannot read it takes for a new one. -/

namespace ErmyaGraph.Raw

open Outcome Bytes WalCodec Function

/-- The metadata that recovery restores. -/
structure GraphMeta where
  pageCount : DataFile → UInt32
  freeDirectoryHead : DataFile → UInt32
  freeSparePage : DataFile → UInt32
  freePageCount : DataFile → UInt32

/-- The store while its journal is replayed: the files, the pages put since, and the metadata. -/
structure Recovering where
  files : DataFile → DiskFile
  pool : AList fun _ : PageKey => PageBuf := ∅
  info : GraphMeta
  replayed : Nat := 0

/-- Put bytes into a buffer; nothing happens where they do not fit. -/
def overwrite {size : Nat} (buf : Buf size) (offset : Nat) (part : List UInt8) : Buf size :=
  if fits : offset + part.length ≤ size then
    ⟨buf.val.take offset ++ (part ++ buf.val.drop (offset + part.length)), by
      have total := buf.property
      simp only [List.length_append, List.length_take, List.length_drop]
      omega⟩
  else buf

theorem getElem?_overwrite {size : Nat} (buf : Buf size) (offset : Nat) (part : List UInt8)
    (i : Nat) : (overwrite buf offset part).val[i]? =
      if offset + part.length ≤ size ∧ offset ≤ i ∧ i < offset + part.length then part[i - offset]?
      else buf.val[i]? := by
  unfold overwrite
  by_cases fits : offset + part.length ≤ size
  · have front : (buf.val.take offset).length = offset := by
      rw [List.length_take, buf.property]
      omega
    rw [dif_pos fits]
    dsimp only
    by_cases before : i < offset
    · rw [if_neg (by omega), List.getElem?_append_left (by omega), List.getElem?_take_of_lt before]
    · by_cases inside : i < offset + part.length
      · rw [if_pos ⟨fits, by omega, inside⟩, List.getElem?_append_right (by omega), front,
          List.getElem?_append_left (by omega)]
      · rw [if_neg (by omega), List.getElem?_append_right (by omega), front,
          List.getElem?_append_right (by omega), List.getElem?_drop]
        congr 1
        omega
  · rw [dif_neg fits, if_neg (fun inside => fits inside.1)]

def pagePayloadSize : Nat := 4080

def slotTombstone : UInt8 := 0x02

def slotsPerPage : Nat := 31

def slotOffset (slotIdx : Nat) : Nat := pageHeaderSize + slotIdx * slotSize

/-- The transactions that a commit record names. -/
def committedTxnIds (records : List WalCodec.WalRecord) : List UInt64 :=
  records.filterMap fun
    | .commit _ txn => some txn
    | _ => none

/-- Records of no transaction are replayed, and those of a committed one. -/
def isDurable (committed : List UInt64) : Option UInt64 → Bool
  | none => true
  | some txn => txn ∈ committed

namespace GraphMeta

def ensurePageCount (info : GraphMeta) (file : DataFile) (minCount : UInt32) : GraphMeta :=
  if info.pageCount file < minCount then
    { info with pageCount := update info.pageCount file minCount }
  else info

/-- Apply one snapshot of a file's free list. A file of a later version is passed over. -/
def replayFreeListState (info : GraphMeta) (fileIndex : UInt8)
    (directoryHead sparePage freeCount : UInt32) : Option GraphMeta :=
  allDataFiles[fileIndex.toNat]?.map fun file =>
    { info with
      freeDirectoryHead := update info.freeDirectoryHead file directoryHead
      freeSparePage := update info.freeSparePage file sparePage
      freePageCount := update info.freePageCount file freeCount }

end GraphMeta

section Replay

variable (crc : List UInt8 → UInt32)

namespace Recovering

/-- Read a page: one put since, or the checked one on disk. -/
def getPage (state : Recovering) (key : PageKey) : Except PoolError PageBuf :=
  match state.pool.lookup key with
  | some page => .ok page
  | none => BufferPool.readFromDisk crc (state.files key.file) key.file key.page

def putPage (state : Recovering) (key : PageKey) (page : PageBuf) : Recovering :=
  { state with pool := state.pool.insert key page }

/-- Whatever keeps a page from being read, a new one takes its place. -/
def readPageOrNew (state : Recovering) (key : PageKey) : PageBuf :=
  match state.getPage crc key with
  | .ok page => page
  | .error _ => newPageBuf

def ensurePageCount (state : Recovering) (file : DataFile) (minCount : UInt32) : Recovering :=
  { state with info := state.info.ensurePageCount file minCount }

def counted (state : Recovering) : Recovering := { state with replayed := state.replayed + 1 }

end Recovering

/-- Put bytes into a slot and finalize the page: its slot count covers the slot. -/
def patchPage (page : PageBuf) (file : DataFile) (pageType : PageType) (slotIdx : Nat)
    (part : List UInt8) (lsnLow : UInt16) : PageBuf :=
  let written := overwrite page (slotOffset slotIdx) part
  let slotCount := max (PageHeader.readFrom written).slotCount (UInt16.ofNat slotIdx + 1)
  finalizePageWithLsn crc written (expectedMagic file) 1 pageType slotCount lsnLow

namespace Recovering

def replaySlot (state : Recovering) (file : DataFile) (page : UInt32) (slotIdx : UInt8)
    (slot : Buf slotSize) (pageType : PageType) (lsn : UInt64) : Recovering :=
  let key : PageKey := ⟨file, page⟩
  state.putPage key
    (patchPage crc (state.readPageOrNew crc key) file pageType slotIdx.toNat slot.val lsn.toUInt16)

/-- Erasing a slot sets its flag. -/
def replayTombstone (state : Recovering) (file : DataFile) (id : UInt64) (pageType : PageType) :
    Recovering :=
  let zeroBased := id - 1
  let page := (zeroBased / UInt64.ofNat slotsPerPage).toUInt32
  let slotIdx := (zeroBased % UInt64.ofNat slotsPerPage).toNat
  let key : PageKey := ⟨file, page⟩
  let ensured := state.ensurePageCount file (page + 1)
  ensured.putPage key
    (patchPage crc (ensured.readPageOrNew crc key) file pageType slotIdx [slotTombstone] 0)

/-- Replay one record. Page numbers wrap as in a release build. -/
def replayRecord (committed : List UInt64) (state : Recovering) : WalCodec.WalRecord → Recovering
  | .writeNode lsn page slotIdx slot txn =>
    if isDurable committed txn then
      ((state.ensurePageCount .nodes (page + 1)).replaySlot crc .nodes page slotIdx slot .node
        lsn).counted
    else state
  | .writeEdge lsn page slotIdx slot txn =>
    if isDurable committed txn then
      ((state.ensurePageCount .edges (page + 1)).replaySlot crc .edges page slotIdx slot .edge
        lsn).counted
    else state
  | .tombstoneNode _ node txn =>
    if isDurable committed txn then (state.replayTombstone crc .nodes node .node).counted
    else state
  | .tombstoneEdge _ edge txn =>
    if isDurable committed txn then (state.replayTombstone crc .edges edge .edge).counted
    else state
  | .writeAdjPage _ page data txn =>
    if isDurable committed txn then
      ((state.ensurePageCount .adjacency (page + 1)).putPage ⟨.adjacency, page⟩ data).counted
    else state
  | .writeStringPage _ page data txn =>
    if isDurable committed txn then
      ((state.ensurePageCount .strings (page + 1)).putPage ⟨.strings, page⟩ data).counted
    else state
  | .writeOverflowPage _ page data txn =>
    if isDurable committed txn then
      ((state.ensurePageCount .overflow (page + 1)).putPage ⟨.overflow, page⟩ data).counted
    else state
  | .freeListState _ fileIndex directoryHead sparePage freeCount =>
    match state.info.replayFreeListState fileIndex directoryHead sparePage freeCount with
    | some info => { state with info }.counted
    | none => state
  | .checkpoint _ | .begin _ _ | .commit _ _ | .rollback _ _ => state

def replayRecords (committed : List UInt64) (state : Recovering)
    (records : List WalCodec.WalRecord) : Recovering :=
  records.foldl (replayRecord crc committed) state

end Recovering

/-- Write pages to their files. -/
def writePages (files : DataFile → DiskFile) (pages : List (PageKey × PageBuf)) :
    DataFile → DiskFile :=
  pages.foldl (fun files entry => update files entry.1.file
    (BufferPool.writeToDisk (files entry.1.file) entry.1.page entry.2)) files

/-- Replay a journal and write what it touched; the journal is truncated afterwards. -/
def recoverFromWal (files : DataFile → DiskFile) (info : GraphMeta)
    (records : List WalCodec.WalRecord) : (DataFile → DiskFile) × GraphMeta × Nat :=
  let state := Recovering.replayRecords crc (committedTxnIds records) { files, info } records
  if 0 < state.replayed then
    (writePages state.files (state.pool.entries.map fun entry => (entry.1, entry.2)), state.info,
      state.replayed)
  else (state.files, state.info, state.replayed)

section Patch

variable {crc} (page : PageBuf)

theorem payload_patchPage (file : DataFile) (pageType : PageType) (slotIdx : Nat)
    (part : List UInt8) (lsnLow : UInt16) :
    payload (patchPage crc page file pageType slotIdx part lsnLow) =
      payload (overwrite page (slotOffset slotIdx) part) :=
  payload_writeTo ..

theorem slotCount_overwrite (slotIdx : Nat) (part : List UInt8) :
    (PageHeader.readFrom (overwrite page (slotOffset slotIdx) part)).slotCount =
      (PageHeader.readFrom page).slotCount := by
  have same : span (overwrite page (slotOffset slotIdx) part).val 12 14 = span page.val 12 14 := by
    apply List.ext_getElem?
    intro i
    rw [span, span, List.getElem?_drop, List.getElem?_drop, List.getElem?_take, List.getElem?_take]
    split
    · rw [getElem?_overwrite, if_neg ?_]
      unfold slotOffset pageHeaderSize
      omega
    · rfl
  exact congrArg u16 same

theorem slotCount_patchPage (file : DataFile) (pageType : PageType) (slotIdx : Nat)
    (part : List UInt8) (lsnLow : UInt16) :
    (PageHeader.readFrom (patchPage crc page file pageType slotIdx part lsnLow)).slotCount =
      max (PageHeader.readFrom page).slotCount (UInt16.ofNat slotIdx + 1) := by
  unfold patchPage finalizePageWithLsn
  rw [PageHeader.readFrom_writeTo, slotCount_overwrite]

theorem getElem?_payload_patchPage (file : DataFile) (pageType : PageType) (slotIdx : Nat)
    (part : List UInt8) (lsnLow : UInt16) (i : Nat) :
    (payload (patchPage crc page file pageType slotIdx part lsnLow))[i]? =
      if slotIdx * slotSize + part.length ≤ pagePayloadSize ∧ slotIdx * slotSize ≤ i ∧
          i < slotIdx * slotSize + part.length then part[i - slotIdx * slotSize]?
      else (payload page)[i]? := by
  have size : pageSize = pageHeaderSize + pagePayloadSize := rfl
  have offset : slotOffset slotIdx = pageHeaderSize + slotIdx * slotSize := rfl
  rw [payload_patchPage, payload, payload, List.getElem?_drop, List.getElem?_drop,
    getElem?_overwrite, offset]
  generalize slotIdx * slotSize = start
  by_cases inside : start + part.length ≤ pagePayloadSize ∧ start ≤ i ∧ i < start + part.length
  · rw [if_pos (by omega), if_pos inside]
    congr 1
    omega
  · rw [if_neg (by omega), if_neg inside]

end Patch

/-- What a replayed record puts on a page. -/
inductive PageWrite where
  | patch (pageType : PageType) (slotIdx : Nat) (part : List UInt8) (lsnLow : UInt16)
  | whole (data : PageBuf)

def PageWrite.apply (write : PageWrite) (file : DataFile) (page : PageBuf) : PageBuf :=
  match write with
  | .patch pageType slotIdx part lsnLow => patchPage crc page file pageType slotIdx part lsnLow
  | .whole data => data

/-- The page of the slot of an entity, and the write that erases it. -/
def tombstoneWrite (file : DataFile) (id : UInt64) (pageType : PageType) : PageKey × PageWrite :=
  (⟨file, ((id - 1) / UInt64.ofNat slotsPerPage).toUInt32⟩,
    .patch pageType ((id - 1) % UInt64.ofNat slotsPerPage).toNat [slotTombstone] 0)

/-- The page that a record writes, if it is replayed. -/
def pageWrite (committed : List UInt64) : WalCodec.WalRecord → Option (PageKey × PageWrite)
  | .writeNode lsn page slotIdx slot txn =>
    if isDurable committed txn then
      some (⟨.nodes, page⟩, .patch .node slotIdx.toNat slot.val lsn.toUInt16)
    else none
  | .writeEdge lsn page slotIdx slot txn =>
    if isDurable committed txn then
      some (⟨.edges, page⟩, .patch .edge slotIdx.toNat slot.val lsn.toUInt16)
    else none
  | .tombstoneNode _ node txn =>
    if isDurable committed txn then some (tombstoneWrite .nodes node .node) else none
  | .tombstoneEdge _ edge txn =>
    if isDurable committed txn then some (tombstoneWrite .edges edge .edge) else none
  | .writeAdjPage _ page data txn =>
    if isDurable committed txn then some (⟨.adjacency, page⟩, .whole data) else none
  | .writeStringPage _ page data txn =>
    if isDurable committed txn then some (⟨.strings, page⟩, .whole data) else none
  | .writeOverflowPage _ page data txn =>
    if isDurable committed txn then some (⟨.overflow, page⟩, .whole data) else none
  | .freeListState _ _ _ _ _ | .checkpoint _ | .begin _ _ | .commit _ _ | .rollback _ _ => none

/-- What a record does to the metadata. -/
def infoWrite (committed : List UInt64) (info : GraphMeta) (record : WalCodec.WalRecord) :
    GraphMeta :=
  match record with
  | .freeListState _ fileIndex directoryHead sparePage freeCount =>
    (info.replayFreeListState fileIndex directoryHead sparePage freeCount).getD info
  | record =>
    match pageWrite committed record with
    | some (key, _) => info.ensurePageCount key.file (key.page + 1)
    | none => info

def isCounted (committed : List UInt64) : WalCodec.WalRecord → Bool
  | .freeListState _ fileIndex _ _ _ => (allDataFiles[fileIndex.toNat]?).isSome
  | record => (pageWrite committed record).isSome

variable {crc}

theorem replayRecord_eq (committed : List UInt64) (state : Recovering) (record : WalCodec.WalRecord) :
    state.replayRecord crc committed record =
      { files := state.files
        pool := match pageWrite committed record with
          | some (key, write) =>
            state.pool.insert key (write.apply crc key.file (state.readPageOrNew crc key))
          | none => state.pool
        info := infoWrite committed state.info record
        replayed := if isCounted committed record then state.replayed + 1 else state.replayed } := by
  cases record with
  | freeListState lsn fileIndex directoryHead sparePage freeCount =>
    cases found : allDataFiles[fileIndex.toNat]? with
    | none =>
      simp only [Recovering.replayRecord, infoWrite, isCounted, pageWrite,
        GraphMeta.replayFreeListState, found, Option.map_none]
      rfl
    | some file =>
      simp only [Recovering.replayRecord, infoWrite, isCounted, pageWrite,
        GraphMeta.replayFreeListState, found, Option.map_some]
      rfl
  | checkpoint | begin | commit | rollback => rfl
  | writeNode lsn page slotIdx slot txn | writeEdge lsn page slotIdx slot txn
  | tombstoneNode lsn id txn | tombstoneEdge lsn id txn | writeAdjPage lsn page data txn
  | writeStringPage lsn page data txn | writeOverflowPage lsn page data txn =>
    unfold Recovering.replayRecord infoWrite isCounted pageWrite
    by_cases durable : isDurable committed txn
    · simp only [durable, if_true]
      rfl
    · simp only [durable]
      rfl

end Replay

end ErmyaGraph.Raw
