import Mathlib.Data.Finset.Lattice.Fold
import ErmyaGraph.Graph.Txn

/-! # Batches, checkpoints, crashes and recovery -/

namespace ErmyaGraph

open Outcome Function

/-- What recovery rebuilds, and how many records it replayed. -/
structure Recovered where
  pages : Pages
  info : Meta
  replayed : Nat := 0

namespace Recovered

def setSlotPage (state : Recovered) (kind : EntityKind) (page : PageId) (data : SlotPage) :
    Recovered :=
  let file := state.pages.slots kind
  { state with
    pages := { state.pages with
      slots := update state.pages.slots kind
        { count := max file.count (page + 1), page := update file.page page data } }
    replayed := state.replayed + 1 }

def setAdjPage (state : Recovered) (page : PageId) (data : AdjPage) : Recovered :=
  let file := state.pages.adjacency
  { state with
    pages := { state.pages with
      adjacency :=
        { count := max file.count (page + 1), page := update file.page page data } }
    replayed := state.replayed + 1 }

def setOverflowPage (state : Recovered) (page : PageId) (data : OverflowPage) : Recovered :=
  let file := state.pages.overflow
  { state with
    pages := { state.pages with
      overflow :=
        { count := max file.count (page + 1), page := update file.page page data } }
    replayed := state.replayed + 1 }

def setStringPage (state : Recovered) (page : PageId) (bytes : List UInt8) (used : Nat) :
    Recovered :=
  let file := state.pages.strings
  { state with
    pages := { state.pages with
      strings :=
        { count := max file.count (page + 1)
          byte := Store.setHeapBytes file.byte (page * pagePayloadSize) bytes
          used := update file.used page used } }
    replayed := state.replayed + 1 }

end Recovered

/-- The effect of one journal record on the files. -/
def applyRecord (state : Recovered) (record : WalRecord) : Recovered :=
  match record with
  | .writeSlot kind page index slot _ =>
    state.setSlotPage kind page (((state.pages.slots kind).page page).replay index slot)
  | .tombstone key _ =>
    let (page, index) := Store.pageAndSlot key.id
    let current := (state.pages.slots key.kind).page page
    state.setSlotPage key.kind page
      (current.replay index { current.slot index with flag := .tombstone })
  | .writeAdjPage page data => state.setAdjPage page data
  | .writeStringPage page bytes used => state.setStringPage page bytes used
  | .writeOverflowPage page data => state.setOverflowPage page data
  | .freeListState head spare count =>
    { state with
      info := { state.info with
        freeDirectoryHead := head, freeSparePage := spare, freePageCount := count }
      replayed := state.replayed + 1 }
  | .checkpoint | .begin _ | .commit _ | .rollback _ => state

def replayRecord (committed : List Nat) (state : Recovered) (record : WalRecord) : Recovered :=
  if isDurable committed record.txn? then applyRecord state record else state

/-- Apply a whole journal to the files of a directory. -/
def replayRecords (disk : Disk) (records : List WalRecord) : Recovered :=
  records.foldl (replayRecord (committedTxnIds records)) { pages := disk.pages, info := disk.info }

/-- The heap cursor that the string pages themselves record. -/
def recalculateStringsWriteOffset (strings : StringFile) : Nat :=
  if strings.count = 0 then 0
  else (strings.count - 1) * pagePayloadSize + strings.used (strings.count - 1)

/-- The slots an opening graph scans: those the page headers cover. -/
def scannedSlots (file : PageFile SlotPage) : List Slot :=
  (List.range file.count).flatMap fun page =>
    (List.range (min (file.page page).slotCount slotsPerPage)).map (file.page page).slot

def liveSlots (file : PageFile SlotPage) : List Slot :=
  (scannedSlots file).filter fun slot => slot.flag = .live

namespace Graph

/-- The storage engine right after the journal was applied. -/
def openStore (disk : Disk) (journal : Option (List WalRecord)) : Store :=
  match journal with
  | none =>
    { pages := disk.pages, info := disk.info, wal := none,
      heapOffset := disk.info.stringsWriteOffset }
  | some records =>
    let state := replayRecords disk records
    if 0 < state.replayed then
      let offset := recalculateStringsWriteOffset state.pages.strings
      { pages := state.pages, info := { state.info with stringsWriteOffset := offset },
        wal := some {}, heapOffset := offset }
    else
      { pages := state.pages, info := state.info, wal := some ⟨records, records.length⟩,
        heapOffset := state.info.stringsWriteOffset }

theorem openStore_pages (disk : Disk) (records : List WalRecord) :
    (openStore disk (some records)).pages = (replayRecords disk records).pages := by
  simp only [openStore]
  split
  · rfl
  · rfl

/-- Cache a node's heads and the tails of its chains. -/
def rebuildAdjSlot (store : Store) (adj : AdjState) (slot : Slot) : Except Error AdjState := do
  let ptr := slot.link.pointer
  if ptr.isAbsent then
    return adj
  let tail (adj : AdjState) (direction : AdjDirection) : Except Error AdjState := do
    match ptr.head direction with
    | none => return adj
    | some head =>
      if ← store.isAdjSlabPage head then
        return adj
      let state ← store.readAdjChainState head
      return adj.insertTail slot.id direction state
  let adj ← tail (adj.insert slot.id ptr) .outgoing
  tail adj .incoming

/-- Enter the live nodes under their properties, as their pages store them. -/
def rebuildProperties (store : Store) (index : Indexes) (id : Nat) : Except Error Indexes := do
  let record ← store.readRecord (.node id)
  return index.insertNode record.label record.properties id

def insertScannedPair (index : Indexes) (slot : Slot) : Indexes :=
  let key := (slot.link.endpoints.1, slot.link.endpoints.2, slot.labelHash)
  { index with pair := update index.pair key (index.pair key ++ [slot.id]) }

/-- Rebuild the label index of a kind from its pages. -/
def rebuildLabels (store : Store) (kind : EntityKind) (index : Indexes) : Except Error Indexes :=
  (liveSlots (store.pages.slots kind)).foldlM
    (fun index slot => do
      let label ← store.slotLabel slot
      return index.insertLabel kind label slot.id)
    index

/-- Whether an append-only declaration covers a stored node. -/
def coveredByAppendOnly (catalog : Catalog) (store : Store) (id : Nat) : Bool :=
  match store.readRecord (.node id) with
  | .ok record => (catalog.appendOnly.lookup record.label).any fun since => since ≤ id
  | .error _ => false

/-- Open a directory: apply the journal, then rebuild every in-memory structure. -/
def «open» (disk : Disk) (journal : Option (List WalRecord)) (evicts : Nat → Nat → Bool) :
    Except Error Graph := do
  let store := openStore disk journal
  let nodes := liveSlots (store.pages.slots .node)
  let edges := liveSlots (store.pages.slots .edge)
  let present : EntityKind → Finset Nat := fun kind =>
    ((liveSlots (store.pages.slots kind)).map Slot.id).toFinset
  let index : Indexes := edges.foldl insertScannedPair { present := present }
  let adj ← nodes.foldlM (rebuildAdjSlot store) { evicts := evicts }
  let index ← match disk.labels with
    | some labels => pure { index with label := labels }
    | none => do
        -- The full rebuild scans the edge pages again and enters every pair once more.
        let index ← rebuildLabels store .node index
        rebuildLabels store .edge (edges.foldl insertScannedPair index)
  let index ← (nodes.map Slot.id).dedup.foldlM (rebuildProperties store) index
  let info := { store.info with
    entityCount := fun kind => (present kind).card
    nextId := fun kind => max (store.info.nextId kind) ((present kind).sup fun id => id + 1) }
  return {
    store := { store with info := info }
    disk := { disk with pages := store.pages, info := store.info }
    adj := adj
    index := index
    catalog := disk.catalog
    appendOnlyIds := (present .node).filter fun id => coveredByAppendOnly disk.catalog store id }

def beginBatch : GraphM Unit := modify fun graph => { graph with batchDepth := graph.batchDepth + 1 }

/-- Write everything to disk and truncate the journal. -/
def flush : GraphM Unit :=
  modify fun graph =>
    let info := { graph.store.info with stringsWriteOffset := graph.store.heapOffset }
    { graph with
      store := { graph.store with info := info, wal := graph.store.wal.map fun _ => {} }
      disk :=
        { pages := graph.store.pages
          info := info
          labels := some graph.index.label
          catalog := if graph.catalog = {} then graph.disk.catalog else graph.catalog } }

/-- The heads under which a node's deferred links are written. -/
def pendingPointer (latest : List (Nat × AdjacencyPointer)) (node : Nat) :
    GraphM AdjacencyPointer := do
  let graph ← get
  match latest.lookup node, graph.adj.cache node with
  | some ptr, _ => return ptr
  | none, some ptr => return ptr
  | none, none =>
    let resolved ← resolveAdjPointer node
    return resolved.getD {}

/-- Write one node's deferred links and remember its heads. -/
def flushPendingEntry (latest : List (Nat × AdjacencyPointer))
    (entry : (Nat × AdjDirection) × List Nat) : GraphM (List (Nat × AdjacencyPointer)) := do
  let node := entry.1.1
  let ptr ← pendingPointer latest node
  let updated ← appendAndUpdateCaches node entry.1.2 ptr entry.2
  return if node ∈ latest.map Prod.fst then
      latest.map fun other => if other.1 = node then (node, updated) else other
    else latest ++ [(node, updated)]

def flushAdjPending : GraphM Unit := do
  let graph ← get
  modifyAdj fun adj => { adj with pending := [] }
  let latest ← graph.adj.pending.foldlM flushPendingEntry []
  latest.forM fun entry => persistAdjPointerToSlot entry.1 entry.2

/-- Close a batch. A checkpoint follows when the journal has outgrown its threshold. -/
def endBatch (checkpointDue : Bool) : GraphM Unit := do
  let graph ← get
  if graph.batchDepth = 0 then
    return
  set { graph with batchDepth := graph.batchDepth - 1 }
  if graph.batchDepth = 1 then
    modify fun graph => { graph with batchOpCount := 0, batchByteCount := 0 }
    flushAdjPending
    walSync
    if checkpointDue then
      flush

/-- The data files. -/
inductive DataFile where
  | slots (kind : EntityKind)
  | adjacency
  | overflow
  | strings

/-- Copy one page of a file. -/
def copyPage (source target : Pages) (file : DataFile) (page : PageId) : Pages :=
  match file with
  | .slots kind =>
    let written := (target.slots kind).write page ((source.slots kind).page page)
    { target with slots := update target.slots kind written }
  | .adjacency =>
    { target with adjacency := target.adjacency.write page (source.adjacency.page page) }
  | .overflow => { target with overflow := target.overflow.write page (source.overflow.page page) }
  | .strings =>
    let byte := fun i =>
      if i / pagePayloadSize = page then source.strings.byte i else target.strings.byte i
    let used := update target.strings.used page (source.strings.used page)
    { target with strings := { target.strings with byte := byte, used := used } }

/-- The buffer pool writes one page back; the metadata does not follow. -/
def evictPage (file : DataFile) (page : PageId) : GraphM Unit :=
  modify fun graph =>
    { graph with disk := { graph.disk with
        pages := copyPage graph.store.pages graph.disk.pages file page } }

/-- The journal a crash leaves: its flushed part and any further prefix. -/
def journalAfter (graph : Graph) (kept : Nat) : Option (List WalRecord) :=
  graph.store.wal.map fun wal => wal.records.take (max kept wal.synced)

/-- Reopen the directory after a crash that kept `kept` journal records, or after a clean drop
when all were kept. -/
def reopen (graph : Graph) (kept : Nat) (evicts : Nat → Nat → Bool) : Except Error Graph :=
  «open» graph.disk (graph.journalAfter kept) evicts

/-- The graph a fresh directory opens to. -/
def fresh (wal : Bool) (evicts : Nat → Nat → Bool) : Graph :=
  { store := { pages := Pages.fresh, info := {}, wal := if wal then some {} else none }
    disk := Disk.fresh
    adj := { evicts := evicts } }

end Graph

end ErmyaGraph
