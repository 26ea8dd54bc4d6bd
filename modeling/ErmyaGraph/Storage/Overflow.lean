import ErmyaGraph.Storage.Page

/-! # Overflow pages

Property blobs that do not fit a slot are packed several to a page, or written
as a chain of pages when one page cannot hold them. Released pages are kept in
the metadata spare slot and in directory pages drawn from the file itself. -/

namespace ErmyaGraph.Store

open Outcome

def entriesPerPage : Nat := 1018

/-- The free list's page write: journalled like any other, without the bounds check. -/
def writeOverflowPageRaw (page : PageId) (data : OverflowPage) : StoreM Unit := do
  walAppend (.writeOverflowPage page data)
  setOverflowPage page data

/-- Record the free list's bookkeeping in the journal. -/
def journalFreeListState : StoreM Unit := do
  let store ← get
  walAppend (.freeListState store.info.freeDirectoryHead store.info.freeSparePage
    store.info.freePageCount)

def modifyMeta (f : Meta → Meta) : StoreM Unit :=
  modify fun store => { store with info := f store.info }

/-- Read the directory page that heads the free list. -/
def readFreeDirectory (store : Store) (page : PageId) :
    Except Error (Option PageId × List PageId) :=
  match store.pages.overflow.page page with
  | .freeDirectory next entries => .ok (next, entries)
  | _ => .error (.corruptPage "overflow.db" page "expected a free-directory page")

/-- Take a reusable page: the spare one first, then the newest entry of the head directory,
then an emptied head directory itself. -/
def takeFreePage : StoreM (Option PageId) := do
  let store ← get
  match store.info.freeSparePage with
  | some spare =>
    modifyMeta fun info =>
      { info with freeSparePage := none, freePageCount := info.freePageCount - 1 }
    journalFreeListState
    return some spare
  | none =>
    match store.info.freeDirectoryHead with
    | none => return none
    | some head =>
      let (next, entries) ← ofResult (store.readFreeDirectory head)
      match entries.getLast? with
      | some id =>
        writeOverflowPageRaw head (.freeDirectory next entries.dropLast)
        modifyMeta fun info => { info with freePageCount := info.freePageCount - 1 }
        journalFreeListState
        return some id
      | none =>
        modifyMeta fun info => { info with freeDirectoryHead := next }
        journalFreeListState
        return some head

/-- Give a page back. -/
def releasePage (page : PageId) : StoreM Unit := do
  let store ← get
  match store.info.freeSparePage with
  | none =>
    modifyMeta fun info =>
      { info with freeSparePage := some page, freePageCount := info.freePageCount + 1 }
    journalFreeListState
  | some _ =>
    match store.info.freeDirectoryHead with
    | none =>
      -- The released page itself becomes the directory.
      writeOverflowPageRaw page (.freeDirectory none [])
      modifyMeta fun info => { info with freeDirectoryHead := some page }
      journalFreeListState
    | some head =>
      let (next, entries) ← ofResult (store.readFreeDirectory head)
      if entries.length < entriesPerPage then
        writeOverflowPageRaw head (.freeDirectory next (entries ++ [page]))
        modifyMeta fun info => { info with freePageCount := info.freePageCount + 1 }
        journalFreeListState
      else
        writeOverflowPageRaw page (.freeDirectory (some head) [])
        modifyMeta fun info => { info with freeDirectoryHead := some page }
        journalFreeListState

/-- Allocate an overflow page, reusing a released one before growing the file. The blank
content is not journalled. -/
def allocateOverflowPage : StoreM PageId := do
  match ← takeFreePage with
  | some recycled =>
    setOverflowPage recycled .blank
    return recycled
  | none =>
    let store ← get
    set { store with pages := { store.pages with overflow := store.pages.overflow.grow .blank } }
    return store.pages.overflow.count

def slabDirCountSize : Nat := 2

def slabDirEntrySize : Nat := 16

def maxPackedBlob : Nat := pagePayloadSize - slabDirCountSize - slabDirEntrySize

/-- The lowest blob offset on the page; freed entries keep their bytes reserved. -/
def blobLowWater (entries : List SlabEntry) : Nat :=
  entries.foldl (fun low entry => min low entry.offset) pagePayloadSize

def slabFreeSpace (entries : List SlabEntry) : Nat :=
  blobLowWater entries - (slabDirCountSize + entries.length * slabDirEntrySize)

def slabLive (entries : List SlabEntry) : List SlabEntry :=
  entries.filter fun entry => entry.entity.isSome

def slabFreeSpaceAfterCompaction (entries : List SlabEntry) : Nat :=
  pagePayloadSize - slabDirCountSize - (slabLive entries).length * slabDirEntrySize -
    ((slabLive entries).map fun entry => entry.blob.length).sum

def slabHasRoomFor (entries : List SlabEntry) (len : Nat) : Bool :=
  len + slabDirEntrySize ≤ slabFreeSpace entries ||
    len + slabDirEntrySize ≤ slabFreeSpaceAfterCompaction entries

/-- Lay entries out again from the end of the page. -/
def repack (writeAt : Nat) : List SlabEntry → List SlabEntry
  | [] => []
  | entry :: rest =>
    { entry with offset := writeAt - entry.blob.length } ::
      repack (writeAt - entry.blob.length) rest

def compact (entries : List SlabEntry) : List SlabEntry := repack pagePayloadSize (slabLive entries)

def retire (key : EntityKey) (entry : SlabEntry) : SlabEntry :=
  if entry.entity = some key then { entry with entity := none } else entry

/-- The directory after writing a blob, if the page can hold it. -/
def slabWrite (entries : List SlabEntry) (key : EntityKey) (blob : List UInt8) :
    Except Error (List SlabEntry) :=
  let retired := entries.map (retire key)
  let room :=
    if slabFreeSpace retired < blob.length + slabDirEntrySize then compact retired else retired
  if slabFreeSpace room < blob.length + slabDirEntrySize then
    .error (.recordTooLarge blob.length)
  else
    .ok (room ++ [⟨some key, blobLowWater room - blob.length, blob⟩])

def slabEntries (store : Store) (page : PageId) : Except Error (List SlabEntry) := do
  match ← store.readOverflowPage page with
  | .slab entries => return entries
  | _ => return []

/-- Store a blob under an entity, replacing the entity's blob on that page. -/
def writeBlob (page : PageId) (key : EntityKey) (blob : List UInt8) : StoreM Unit := do
  let store ← get
  let entries ← ofResult (store.slabEntries page)
  let written ← ofResult (slabWrite entries key blob)
  writeOverflowPage page (.slab written)

def slabLookup (entries : List SlabEntry) (key : EntityKey) : Option (List UInt8) :=
  (entries.find? fun entry => entry.entity = some key).map SlabEntry.blob

/-- Free an entity's blob; the answer says whether the page still holds a live one. -/
def freeBlob (page : PageId) (key : EntityKey) : StoreM Bool := do
  let store ← get
  let entries ← ofResult (store.slabEntries page)
  if entries.any fun entry => entry.entity = some key then
    writeOverflowPage page (.slab (entries.map (retire key)))
  return entries.any fun entry => entry.entity.isSome && entry.entity ≠ some key

def isSlabPage (store : Store) (page : PageId) : Bool :=
  match store.readOverflowPage page with
  | .ok (.slab _) => true
  | _ => false

def firstPageDataCap : Nat := 4072

def contPageDataCap : Nat := 4076

/-- Write the continuation pages of a chain, the first of which is already allocated. -/
def writeContPages : (fuel : Nat) → PageId → List UInt8 → StoreM Unit
  | 0, _, _ => return
  | fuel + 1, page, data => do
      let rest := data.drop contPageDataCap
      if rest.isEmpty then
        writeOverflowPage page (.cont (data.take contPageDataCap) none)
      else
        let next ← allocateOverflowPage
        writeOverflowPage page (.cont (data.take contPageDataCap) (some next))
        writeContPages fuel next rest

/-- Write a blob as a chain and return its first page. -/
def writeOverflow (data : List UInt8) : StoreM PageId := do
  if 2 ^ 32 ≤ data.length then
    throw (.recordTooLarge data.length)
  let page ← allocateOverflowPage
  let rest := data.drop firstPageDataCap
  if rest.isEmpty then
    writeOverflowPage page (.first data.length (data.take firstPageDataCap) none)
    return page
  else
    let next ← allocateOverflowPage
    writeOverflowPage page (.first data.length (data.take firstPageDataCap) (some next))
    writeContPages rest.length next rest
    return page

/-- Follow continuation pages until enough bytes are read. -/
def readContPages (store : Store) (total : Nat) : (fuel : Nat) → Option PageId → List UInt8 →
    Except Error (List UInt8)
  | 0, _, data => return data
  | _ + 1, none, data => return data
  | fuel + 1, some page, data =>
    if data.length < total then do
      match ← store.readOverflowPage page with
      | .cont chunk next => readContPages store total fuel next (data ++ chunk)
      | _ => throw (.corruptPage "overflow.db" page "expected a continuation page")
    else return data

/-- Read a chain back. -/
def readOverflow (store : Store) (page : PageId) : Except Error (List UInt8) := do
  match ← store.readOverflowPage page with
  | .first total chunk next => readContPages store total (total + 1) next chunk
  | .blank => return []
  | _ => throw (.corruptPage "overflow.db" page "expected the first page of a chain")

/-- The link a chain page stores. -/
def chainNext : OverflowPage → Option PageId
  | .first _ _ next => next
  | .cont _ next => next
  | _ => none

/-- Collect the pages of a chain; the file's page count bounds the walk. -/
def chainPages (store : Store) : (fuel : Nat) → PageId → List PageId
  | 0, _ => []
  | fuel + 1, page =>
    match store.readOverflowPage page with
    | .error _ => []
    | .ok data =>
      match chainNext data with
      | none => [page]
      | some next => page :: chainPages store fuel next

def freeOverflowChain (page : PageId) : StoreM Unit := do
  let store ← get
  (store.chainPages (store.pages.overflow.count + 1) page).forM releasePage

/-- Whether a remembered packed page still is one and can take a blob. -/
def slabPageHasRoom (store : Store) (page : PageId) (len : Nat) : Bool :=
  match store.readOverflowPage page with
  | .ok (.slab entries) => slabHasRoomFor entries len
  | _ => false

/-- Store a blob and return the page that holds it. -/
def storeOverflowedProps (key : EntityKey) (bytes : List UInt8) : StoreM PageId := do
  let store ← get
  if maxPackedBlob < bytes.length then
    writeOverflow bytes
  else
    match store.propSlabOpenPage.filter fun page => store.slabPageHasRoom page bytes.length with
    | some page =>
      writeBlob page key bytes
      return page
    | none =>
      let page ← allocateOverflowPage
      writeOverflowPage page (.slab [])
      writeBlob page key bytes
      modify fun store => { store with propSlabOpenPage := some page }
      return page

/-- Read a blob back. A packed page without an entry for the entity yields no bytes. -/
def readOverflowedProps (store : Store) (key : EntityKey) (page : PageId) :
    Except Error (List UInt8) := do
  if store.isSlabPage page then
    let entries ← store.slabEntries page
    return (slabLookup entries key).getD []
  else
    store.readOverflow page

/-- Release what an entity stored at a page. -/
def releaseOverflowedProps (key : EntityKey) (page : PageId) : StoreM Unit := do
  let store ← get
  if store.isSlabPage page then
    let stillLive ← freeBlob page key
    unless stillLive do
      modify fun store =>
        if store.propSlabOpenPage = some page then { store with propSlabOpenPage := none }
        else store
      releasePage page
  else
    freeOverflowChain page

end ErmyaGraph.Store
