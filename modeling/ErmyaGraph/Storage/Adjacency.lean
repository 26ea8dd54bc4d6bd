import ErmyaGraph.Storage.Page

/-! # Adjacency pages

The edge list of a node in one direction lives in a sub-block of a page shared
with other nodes, or in a chain of pages of its own once it has outgrown that. -/

namespace ErmyaGraph.Store

open Outcome

def adjCorrupt (page : PageId) (reason : String) : Error := .corruptPage "adjacency.db" page reason

def adjDirEntrySize : Nat := 14

def adjDirCountSize : Nat := 2

def adjEdgeSize : Nat := 8

def directoryAreaEnd (total : Nat) : Nat := adjDirCountSize + total * adjDirEntrySize

/-- The entries of a shared page; any other page has none. -/
def subblocks (store : Store) (page : PageId) : Except Error (List Subblock) := do
  match ← store.readAdjPage page with
  | .slab entries => return entries
  | _ => return []

def isAdjSlabPage (store : Store) (page : PageId) : Except Error Bool := do
  match ← store.readAdjPage page with
  | .slab _ => return true
  | _ => return false

def subblocksBytesUsed (entries : List Subblock) : Nat :=
  pagePayloadSize -
    entries.foldl (fun low entry => if entry.direction.isSome then min low entry.offset else low)
      pagePayloadSize

def subblockBytesNeeded (edgeCount : Nat) : Nat := adjDirEntrySize + edgeCount * adjEdgeSize

/-- Room between the directory and the sub-blocks; the directory's count field is not
subtracted. -/
def adjSlabFreeSpace (page : PageId) (entries : List Subblock) : Except Error Nat :=
  let directory := entries.length * adjDirEntrySize
  if directory + subblocksBytesUsed entries ≤ pagePayloadSize then
    .ok (pagePayloadSize - directory - subblocksBytesUsed entries)
  else .error (adjCorrupt page "slab directory + sub-block usage exceeds page capacity")

def slabCanFitSubblock (page : PageId) (entries : List Subblock) (edgeCount : Nat) :
    Except Error Bool := do
  let free ← adjSlabFreeSpace page entries
  return decide (subblockBytesNeeded edgeCount < free)

def fitsInEmptySlab (edgeCount : Nat) : Bool :=
  subblockBytesNeeded edgeCount < pagePayloadSize - adjDirCountSize

/-- Whether an entry is the live sub-block of a node and direction. -/
def Subblock.isFor (node : Nat) (direction : AdjDirection) (entry : Subblock) : Bool :=
  entry.node = node && entry.direction = some direction

def findLiveEntry (entries : List Subblock) (node : Nat) (direction : AdjDirection) :
    Option (Nat × Subblock) :=
  match entries.findIdx? (Subblock.isFor node direction) with
  | some index => entries[index]?.map fun entry => (index, entry)
  | none => none

def allocateSlabPage : StoreM PageId := do
  let page ← allocateAdjPage
  writeAdjPage page (.slab [])
  return page

/-- Start the sub-block of a node and direction. -/
def writeSubblock (page : PageId) (node : Nat) (direction : AdjDirection) (edges : List Nat) :
    StoreM Unit := do
  let store ← get
  let entries ← ofResult (store.subblocks page)
  if (findLiveEntry entries node direction).isSome then
    throw (adjCorrupt page "slab sub-block already exists for (node_id, direction)")
  let free ← ofResult (adjSlabFreeSpace page entries)
  if free < subblockBytesNeeded edges.length then
    throw (adjCorrupt page "slab page has insufficient free space for new sub-block")
  let offset := pagePayloadSize - subblocksBytesUsed entries - edges.length * adjEdgeSize
  if offset < directoryAreaEnd (entries.length + 1) then
    throw (adjCorrupt page "slab directory has no room for a new entry")
  writeAdjPage page (.slab (entries ++ [⟨node, some direction, offset, edges⟩]))

def noLiveSubblock (page : PageId) : Error :=
  adjCorrupt page "no live slab sub-block for (node_id, direction)"

def readSubblock (store : Store) (page : PageId) (node : Nat) (direction : AdjDirection) :
    Except Error (List Nat) := do
  let entries ← store.subblocks page
  match findLiveEntry entries node direction with
  | some (_, entry) => return entry.edges
  | none => throw (noLiveSubblock page)

/-- Grow a sub-block in place; the answer says whether there was room. Only the lowest
sub-block of the page can grow. -/
def appendSubblockEdges (page : PageId) (node : Nat) (direction : AdjDirection)
    (added : List Nat) : StoreM Bool := do
  let store ← get
  let entries ← ofResult (store.subblocks page)
  match findLiveEntry entries node direction with
  | none => throw (noLiveSubblock page)
  | some (index, entry) =>
    if entry.offset ≠ pagePayloadSize - subblocksBytesUsed entries then
      return false
    let free ← ofResult (adjSlabFreeSpace page entries)
    let needed := added.length * adjEdgeSize
    if free < needed then
      return false
    if entry.offset < needed then
      throw (adjCorrupt page "slab sub-block offset underflow on append")
    if entry.offset - needed < directoryAreaEnd entries.length then
      return false
    writeAdjPage page (.slab (entries.set index
      { entry with offset := entry.offset - needed, edges := entry.edges ++ added }))
    return true

/-- Mark a sub-block as freed. -/
def freeSubblock (page : PageId) (node : Nat) (direction : AdjDirection) : StoreM Unit := do
  let store ← get
  let entries ← ofResult (store.subblocks page)
  match findLiveEntry entries node direction with
  | none => throw (noLiveSubblock page)
  | some (index, _) =>
    writeAdjPage page (.slab (entries.set index ⟨node, none, 0, []⟩))

/-- Replace the edges of a sub-block by no more than it holds. -/
def rewriteSubblockEdges (page : PageId) (node : Nat) (direction : AdjDirection)
    (edges : List Nat) : StoreM Unit := do
  let store ← get
  let entries ← ofResult (store.subblocks page)
  match findLiveEntry entries node direction with
  | none => throw (noLiveSubblock page)
  | some (index, entry) =>
    if entry.edges.length < edges.length then
      throw (adjCorrupt page
        "rewrite_subblock_edges cannot grow a sub-block; use append_subblock_edges")
    writeAdjPage page (.slab (entries.set index { entry with edges := edges }))

def maxEdgesSinglePage : Nat := 508

def maxEdgesChainedPage : Nat := 507

def maxEdgesContPage : Nat := 509

/-- What an append needs to know of a chain: its pages' ends and how full the last one is. -/
structure ChainState where
  firstPage : PageId
  lastPage : PageId
  total : Nat
  lastUsed : Nat
  isSingle : Bool
deriving DecidableEq

def stateAfterAppend (first last : PageId) (total : Nat) : ChainState :=
  if total ≤ maxEdgesSinglePage then ⟨first, first, total, total, true⟩
  else
    let rest := (total - maxEdgesChainedPage) % maxEdgesContPage
    ⟨first, last, total, if rest = 0 then maxEdgesContPage else rest, false⟩

/-- Write continuation pages from an allocated one on; the answer lists the pages written. -/
def writeContinuationPages : (fuel : Nat) → PageId → List Nat → StoreM (List PageId)
  | 0, _, _ => return []
  | fuel + 1, page, edges => do
      let rest := edges.drop maxEdgesContPage
      if rest.isEmpty then
        writeAdjPage page (.cont (edges.take maxEdgesContPage) none)
        return [page]
      else
        let next ← allocateAdjPage
        writeAdjPage page (.cont (edges.take maxEdgesContPage) (some next))
        let others ← writeContinuationPages fuel next rest
        return page :: others

/-- Record the last page of a chain on its first page. -/
def backpatchLastPage (first last : PageId) : StoreM Unit := do
  let store ← get
  match ← ofResult (store.readAdjPage first) with
  | .first node direction total edges next _ =>
    writeAdjPage first (.first node direction total edges next last)
  | _ => throw (adjCorrupt first
      "expected a dedicated adjacency chain page, found a different page type")

/-- Write an edge list as a chain of its own. -/
def writeAdjacency (node : Nat) (direction : AdjDirection) (edges : List Nat) :
    StoreM PageId := do
  if edges.length ≤ maxEdgesSinglePage then
    let page ← allocateAdjPage
    writeAdjPage page (.first node direction edges.length edges none page)
    return page
  else
    let first ← allocateAdjPage
    let next ← allocateAdjPage
    writeAdjPage first (.first node direction edges.length (edges.take maxEdgesChainedPage)
      (some next) first)
    let written ← writeContinuationPages edges.length next (edges.drop maxEdgesChainedPage)
    backpatchLastPage first (written.getLast?.getD next)
    return first

/-- Follow continuation pages until enough edges are read. -/
def readContinuation (store : Store) (total : Nat) : (fuel : Nat) → Option PageId → List Nat →
    Except Error (List Nat)
  | 0, _, edges => return edges
  | _ + 1, none, edges => return edges
  | fuel + 1, some page, edges =>
    if edges.length < total then do
      match ← store.readAdjPage page with
      | .cont chunk next =>
        readContinuation store total fuel next (edges ++ chunk.take (total - edges.length))
      | _ => throw (adjCorrupt page "expected a continuation page")
    else return edges

/-- Read the edge list of a chain. -/
def readAdjacency (store : Store) (page : PageId) : Except Error (List Nat) := do
  match ← store.readAdjPage page with
  | .first _ _ total edges next _ =>
    if total ≤ maxEdgesSinglePage then return edges.take total
    else readContinuation store total (total + 1) next (edges.take maxEdgesChainedPage)
  | _ => throw (adjCorrupt page
      "expected a dedicated adjacency chain page, found a different page type")

def readAdjChainState (store : Store) (page : PageId) : Except Error ChainState := do
  match ← store.readAdjPage page with
  | .first _ _ total _ _ last => return stateAfterAppend page last total
  | _ => throw (adjCorrupt page
      "expected a dedicated adjacency chain page, found a different page type")

/-- Fill the last page of a chain and continue on new ones; the answer lists the pages
written. -/
def extendLastPage (last : PageId) (filled rest : List Nat) : StoreM (List PageId) := do
  if rest.isEmpty then
    writeAdjPage last (.cont filled none)
    return [last]
  else
    let fresh ← allocateAdjPage
    writeAdjPage last (.cont filled (some fresh))
    let others ← writeContinuationPages rest.length fresh rest
    return last :: others

/-- Append edges to a chain whose state is known, or start one. The answer holds the first
page, the pages to journal and the new state. -/
def appendAdjacencyWithState (node : Nat) (direction : AdjDirection) (existing : Option PageId)
    (cached : Option ChainState) (added : List Nat) :
    StoreM (PageId × List PageId × ChainState) := do
  match existing with
  | none =>
    let page ← writeAdjacency node direction added
    let store ← get
    let state ← ofResult (if added.length ≤ maxEdgesSinglePage then
        .ok (stateAfterAppend page page added.length)
      else store.readAdjChainState page)
    return (page, [page], state)
  | some first =>
    let store ← get
    let state ← ofResult (match cached with
      | some state => .ok state
      | none => store.readAdjChainState first)
    let total := state.total + added.length
    match ← ofResult (store.readAdjPage first) with
    | .first owner side stored edges next last =>
      if state.isSingle then
        if total ≤ maxEdgesSinglePage then
          -- The stored count, not the cached one, decides where the edges go.
          writeAdjPage first
            (.first owner side (stored + added.length) (edges.take stored ++ added) next last)
          return (first, [first], stateAfterAppend first first (stored + added.length))
        else
          let present ← ofResult (store.readAdjacency first)
          let all := present ++ added
          let head ← allocateAdjPage
          writeAdjPage first
            (.first owner side total (all.take maxEdgesChainedPage) (some head) last)
          let written ← writeContinuationPages all.length head (all.drop maxEdgesChainedPage)
          let newLast := written.getLast?.getD first
          backpatchLastPage first newLast
          return (first, first :: written, stateAfterAppend first newLast total)
      else
        match ← ofResult (store.readAdjPage state.lastPage) with
        | .cont present _ =>
          let room := maxEdgesContPage - state.lastUsed
          let filled := present.take state.lastUsed ++ added.take room
          let written ← extendLastPage state.lastPage filled (added.drop room)
          let newLast := written.getLast?.getD state.lastPage
          writeAdjPage first (.first owner side total edges next newLast)
          return (first, written ++ [first], stateAfterAppend first newLast total)
        | _ => throw (adjCorrupt state.lastPage "expected a continuation page")
    | _ => throw (adjCorrupt first
        "expected a dedicated adjacency chain page, found a different page type")

/-- Journal the current image of an adjacency page. -/
def walLogAdjPage (page : PageId) : StoreM Unit := do
  let store ← get
  if store.walEnabled then
    let data ← ofResult (store.readAdjPage page)
    walAppend (.writeAdjPage page data)

/-- The edge ids a head page lists for a node and direction. -/
def readAdjEdgeIds (store : Store) (head : PageId) (node : Nat) (direction : AdjDirection) :
    Except Error (List Nat) := do
  if ← store.isAdjSlabPage head then
    store.readSubblock head node direction
  else
    store.readAdjacency head

end ErmyaGraph.Store
