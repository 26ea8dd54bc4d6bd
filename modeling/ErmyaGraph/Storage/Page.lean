import ErmyaGraph.Lib.Outcome
import ErmyaGraph.Data
import ErmyaGraph.Lib.Bytes

/-! # Pages, data files and the journal

The five data files as the buffer pool shows them, the metadata page and the
write-ahead log. A page is kept as the fields its bytes encode. -/

namespace ErmyaGraph

def slotsPerPage : Nat := 31

def pagePayloadSize : Nat := 4080

inductive SlotFlag where
  | empty
  | live
  | tombstone
deriving DecidableEq, Repr

/-- A label is stored in its slot, or in the string heap at an offset. -/
inductive LabelField where
  | inline (text : String)
  | overflow (offset : Nat)
deriving DecidableEq

/-- One 128-byte slot. Erasing it only changes the flag. -/
structure Slot where
  flag : SlotFlag := .empty
  id : Nat := 0
  labelHash : UInt32 := 0
  label : LabelField := .inline ""
  propCount : Nat := 0
  propInline : List UInt8 := []
  propOverflow : PageId := 0
  link : Link := .heads {}
deriving DecidableEq

namespace Slot

/-- Properties were stored on overflow pages; the flag byte is not consulted. -/
def needsPropResolve (slot : Slot) : Bool := 0 < slot.propCount && slot.propInline.isEmpty

/-- The overflow page the slot names, if it names one. -/
def propOverflow? (slot : Slot) : Option PageId :=
  if slot.needsPropResolve then some slot.propOverflow else none

end Slot

/-- A node or edge page: its header's slot count and its slots. -/
structure SlotPage where
  slotCount : Nat := 0
  slot : Nat → Slot := fun _ => {}

namespace SlotPage

/-- The number of live or erased slots, which the writer records in the header. -/
def countUsedSlots (page : SlotPage) : Nat :=
  ((List.range slotsPerPage).filter fun i => (page.slot i).flag ≠ .empty).length

/-- Replace one slot and record the number of used slots. -/
def write (page : SlotPage) (i : Nat) (slot : Slot) : SlotPage :=
  let slots := Function.update page.slot i slot
  { slotCount := countUsedSlots { page with slot := slots }, slot := slots }

/-- Replace one slot as recovery does: the header covers the highest slot replayed. -/
def replay (page : SlotPage) (i : Nat) (slot : Slot) : SlotPage :=
  { slotCount := max page.slotCount (i + 1), slot := Function.update page.slot i slot }

end SlotPage

/-- An entry of a packed property page; a freed entry keeps its bytes reserved. -/
structure SlabEntry where
  entity : Option EntityKey
  offset : Nat
  blob : List UInt8
deriving DecidableEq

/-- A page of the overflow file. -/
inductive OverflowPage where
  | blank
  | slab (entries : List SlabEntry)
  | first (totalLen : Nat) (data : List UInt8) (next : Option PageId)
  | cont (data : List UInt8) (next : Option PageId)
  | freeDirectory (next : Option PageId) (entries : List PageId)
deriving DecidableEq

/-- A sub-block of an adjacency slab; a freed one has no direction. -/
structure Subblock where
  node : Nat
  direction : Option AdjDirection
  offset : Nat
  edges : List Nat
deriving DecidableEq

/-- A page of the adjacency file: shared by several nodes, or part of one node's chain. -/
inductive AdjPage where
  | blank
  | slab (entries : List Subblock)
  | first (node : Nat) (direction : AdjDirection) (total : Nat) (edges : List Nat)
      (next : Option PageId) (last : PageId)
  | cont (edges : List Nat) (next : Option PageId)
deriving DecidableEq

/-- A data file: the pages the metadata counts, and the content of every page number. -/
structure PageFile (α : Type) where
  count : Nat
  page : Nat → α

namespace PageFile

variable {α : Type}

def write (file : PageFile α) (i : PageId) (page : α) : PageFile α :=
  { file with page := Function.update file.page i page }

def grow (file : PageFile α) (page : α) : PageFile α :=
  { count := file.count + 1, page := Function.update file.page file.count page }

variable (file : PageFile α)

@[simp]
theorem write_count (i : PageId) (page : α) : (file.write i page).count = file.count := rfl

@[simp]
theorem grow_count (page : α) : (file.grow page).count = file.count + 1 := rfl

end PageFile

/-- The string heap file, byte by byte, with the used length each page header records. -/
structure StringFile where
  count : Nat
  byte : Nat → UInt8
  used : Nat → Nat

/-- The content of all data files. -/
structure Pages where
  slots : EntityKind → PageFile SlotPage
  adjacency : PageFile AdjPage
  overflow : PageFile OverflowPage
  strings : StringFile

/-- Files of a store that was just created. -/
def Pages.fresh : Pages where
  slots := fun _ => ⟨0, fun _ => {}⟩
  adjacency := ⟨0, fun _ => .blank⟩
  overflow := ⟨0, fun _ => .blank⟩
  strings := ⟨0, fun _ => 0, fun _ => 0⟩

/-- The metadata page. Only the overflow file ever releases pages. -/
structure Meta where
  entityCount : EntityKind → Nat := fun _ => 0
  nextId : EntityKind → Nat := fun _ => 1
  stringsWriteOffset : Nat := 0
  freeDirectoryHead : Option PageId := none
  freeSparePage : Option PageId := none
  freePageCount : Nat := 0

/-- The records of the journal. Page images are kept as the page they hold. -/
inductive WalRecord where
  | writeSlot (kind : EntityKind) (page : PageId) (index : Nat) (slot : Slot) (txn : Option Nat)
  | tombstone (key : EntityKey) (txn : Option Nat)
  | writeAdjPage (page : PageId) (data : AdjPage)
  | writeStringPage (page : PageId) (bytes : List UInt8) (used : Nat)
  | writeOverflowPage (page : PageId) (data : OverflowPage)
  | checkpoint
  | begin (txn : Nat)
  | commit (txn : Nat)
  | rollback (txn : Nat)
  | freeListState (directoryHead spare : Option PageId) (count : Nat)
deriving DecidableEq

namespace WalRecord

/-- The transaction a data record belongs to; other records carry none. -/
def txn? : WalRecord → Option Nat
  | .writeSlot _ _ _ _ txn => txn
  | .tombstone _ txn => txn
  | _ => none

def committed? : WalRecord → Option Nat
  | .commit txn => some txn
  | _ => none

end WalRecord

/-- Transactions whose commit marker the journal holds, whoever wrote it. -/
def committedTxnIds (records : List WalRecord) : List Nat := records.filterMap WalRecord.committed?

/-- A record is replayed when it belongs to no transaction or to one with a marker. -/
def isDurable (committed : List Nat) (txn : Option Nat) : Bool :=
  match txn with
  | none => true
  | some id => id ∈ committed

/-- The journal: every record appended since it was last truncated, of which the first
`synced` are on disk for certain. -/
structure Wal where
  records : List WalRecord := []
  synced : Nat := 0

/-- The storage engine below the graph: pages, metadata, journal, the string heap's cursor
and deduplication table, and the packed page that currently accepts property blobs. -/
structure Store where
  pages : Pages
  info : Meta
  wal : Option Wal
  heapDedup : List (String × Nat) := []
  heapOffset : Nat := 0
  propSlabOpenPage : Option PageId := none

abbrev StoreM := EStateM Error Store

namespace Store

open Outcome

def pageAndSlot (id : Nat) : PageId × Nat := ((id - 1) / slotsPerPage, (id - 1) % slotsPerPage)

def slotFileName : EntityKind → String
  | .node => "nodes.db"
  | .edge => "edges.db"

def notAllocated (file : String) (page : PageId) : Error :=
  .corruptPage file page "page not allocated"

def walEnabled (store : Store) : Bool := store.wal.isSome

/-- Append a record to the journal, if there is one. -/
def walAppend (record : WalRecord) : StoreM Unit :=
  modify fun store =>
    { store with wal := store.wal.map fun wal => { wal with records := wal.records ++ [record] } }

/-- Append a record unless the caller journals the write itself. -/
def walAppendIf (logWal : Bool) (record : WalRecord) : StoreM Unit :=
  if logWal then walAppend record else return

def walSync : StoreM Unit :=
  modify fun store =>
    { store with wal := store.wal.map fun wal => { wal with synced := wal.records.length } }

def readSlotPage (store : Store) (kind : EntityKind) (page : PageId) : Except Error SlotPage :=
  if page < (store.pages.slots kind).count then .ok ((store.pages.slots kind).page page)
  else .error (notAllocated (slotFileName kind) page)

def setSlotFile (kind : EntityKind) (file : PageFile SlotPage) : StoreM Unit :=
  modify fun store =>
    { store with pages := { store.pages with slots := Function.update store.pages.slots kind file } }

def readOverflowPage (store : Store) (page : PageId) : Except Error OverflowPage :=
  if page < store.pages.overflow.count then .ok (store.pages.overflow.page page)
  else .error (notAllocated "overflow.db" page)

def setOverflowPage (page : PageId) (data : OverflowPage) : StoreM Unit :=
  modify fun store =>
    { store with pages := { store.pages with overflow := store.pages.overflow.write page data } }

/-- Writing an overflow page journals its image first. -/
def writeOverflowPage (page : PageId) (data : OverflowPage) : StoreM Unit := do
  let store ← get
  if store.pages.overflow.count ≤ page then
    throw (notAllocated "overflow.db" page)
  walAppend (.writeOverflowPage page data)
  setOverflowPage page data

def readAdjPage (store : Store) (page : PageId) : Except Error AdjPage :=
  if page < store.pages.adjacency.count then .ok (store.pages.adjacency.page page)
  else .error (notAllocated "adjacency.db" page)

/-- Adjacency pages are journalled by their callers, not by the page write. -/
def writeAdjPage (page : PageId) (data : AdjPage) : StoreM Unit := do
  let store ← get
  if store.pages.adjacency.count ≤ page then
    throw (notAllocated "adjacency.db" page)
  set { store with pages := { store.pages with adjacency := store.pages.adjacency.write page data } }

/-- The adjacency file releases no page, so a new page always extends it. -/
def allocateAdjPage : StoreM PageId := do
  let store ← get
  set { store with pages := { store.pages with adjacency := store.pages.adjacency.grow .blank } }
  return store.pages.adjacency.count

def allocateSlotPage (kind : EntityKind) : StoreM Unit := do
  let store ← get
  setSlotFile kind ((store.pages.slots kind).grow {})

/-- Append pages until the given one exists. -/
def ensureSlotPage (kind : EntityKind) (page : PageId) : StoreM Unit := do
  let store ← get
  let missing := page + 1 - (store.pages.slots kind).count
  (List.range missing).forM fun _ => allocateSlotPage kind

end Store

end ErmyaGraph
