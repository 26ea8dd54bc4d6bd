import ErmyaGraph.Lib.Memory
import ErmyaGraph.Storage.Adjacency

/-! # The bytes of a dedicated adjacency chain

A first page holds the record header and as many edges as fit, continuation
pages hold the rest. When a list outgrows its first page, the end of that page's
payload becomes a trailer: the last page of the chain and the next page. The
legacy format has no field for the last page. -/

namespace ErmyaGraph.AdjChainCodec

open Bytes Outcome

open Store

/-- What this codec reads of a page: two header fields and the payload. -/
structure RawPage where
  pageType : Nat := 0
  version : Nat := 0
  payload : Memory := fun _ => 0

/-- The adjacency file, and how often its allocator was asked for a page. -/
structure Backend where
  file : PageFile RawPage
  taken : Nat := 0

abbrev BackendM := EStateM Error Backend

/-- What the allocator answers, in order. Released pages may be among the pages it hands out. -/
abbrev Supply := Nat → Except Error PageId

def noNext : Nat := 0xFFFFFFFF

def pageTypeAdjacency : Nat := 3

def adjFormatV2 : Nat := 2

def recordHeaderSize : Nat := 16

def contHeaderSize : Nat := 4

def lastPageIdTailOffset : Nat := pagePayloadSize - 8

def nextPageOffset : Nat := pagePayloadSize - 4

/-- The edges on the first page of a chain. The two formats reserve different trailers, but
the same number of edges fits before them. -/
def firstPageEdgesForVersion (version : Nat) : Nat :=
  if adjFormatV2 ≤ version then maxEdgesChainedPage
  else (pagePayloadSize - recordHeaderSize - 4) / 8

def readPage (backend : Backend) (page : PageId) : Except Error RawPage :=
  if page < backend.file.count then .ok (backend.file.page page)
  else .error (notAllocated "adjacency.db" page)

def writePage (page : PageId) (data : RawPage) : BackendM Unit := do
  let backend ← get
  if backend.file.count ≤ page then
    throw (notAllocated "adjacency.db" page)
  set { backend with file := backend.file.write page data }

/-- Take a page from the allocator, which hands it back blank. -/
def allocatePage (supply : Supply) : BackendM PageId := do
  let backend ← get
  let page ← ofResult (supply backend.taken)
  let file : PageFile RawPage :=
    ⟨max backend.file.count (page + 1), Function.update backend.file.page page {}⟩
  set ({ file := file, taken := backend.taken + 1 } : Backend)
  return page

def finalizePage (payload : Memory) : RawPage := ⟨pageTypeAdjacency, adjFormatV2, payload⟩

def ensureDedicatedChainPage (page : PageId) (data : RawPage) : Except Error Unit :=
  if data.pageType = pageTypeAdjacency then .ok ()
  else .error (adjCorrupt page
    "expected a dedicated adjacency chain page, found a different page type")

def directionByte : AdjDirection → UInt8
  | .outgoing => 0
  | .incoming => 1

structure AdjacencyRecord where
  node : Nat
  direction : AdjDirection
  edges : List Nat
deriving DecidableEq

/-- The header of a record whose list has a given length. -/
def recordHeader (node : Nat) (direction : AdjDirection) (total : Nat) : List UInt8 :=
  leBytes 8 node ++ directionByte direction :: (leBytes 4 total ++ [0, 0, 0])

def encodeAdjacencyRecord (record : AdjacencyRecord) : List UInt8 :=
  recordHeader record.node record.direction record.edges.length ++ wordBytes record.edges

def singlePage (record : AdjacencyRecord) : RawPage :=
  finalizePage (splice (fun _ => 0) 0 (encodeAdjacencyRecord record))

/-- A page that starts a record and links to the next one. -/
def chainedFirstPage (record : AdjacencyRecord) (next : PageId) : RawPage :=
  finalizePage (writeLe (splice (fun _ => 0) 0
    (recordHeader record.node record.direction record.edges.length ++
      wordBytes (record.edges.take maxEdgesChainedPage))) nextPageOffset 4 next)

/-- Write edges to continuation pages from an allocated one on, over the payload each page has
already; the answer lists the pages written. -/
def writeChunks (supply : Supply) (payload : PageId → BackendM Memory) :
    (fuel : Nat) → PageId → List Nat → BackendM (List PageId)
  | 0, _, _ => return []
  | fuel + 1, page, edges => do
      let rest := edges.drop maxEdgesContPage
      let next ← if rest.isEmpty then pure noNext else allocatePage supply
      let mem ← payload page
      writePage page (finalizePage
        (splice (writeLe mem 0 4 next) contHeaderSize (wordBytes (edges.take maxEdgesContPage))))
      if rest.isEmpty then
        return [page]
      else
        let others ← writeChunks supply payload fuel next rest
        return page :: others

/-- The payload of a page that is there already. -/
def readPayload (page : PageId) : BackendM Memory := do
  let backend ← get
  let data ← ofResult (readPage backend page)
  return data.payload

def writeContinuationPages (supply : Supply) (page : PageId) (edges : List Nat) :
    BackendM (List PageId) :=
  writeChunks supply readPayload (edges.length + 1) page edges

/-- Record the last page of a chain on its first page. -/
def backpatchLastPageId (first last : PageId) : BackendM Unit := do
  let mem ← readPayload first
  writePage first (finalizePage (writeLe mem lastPageIdTailOffset 4 last))

/-- Write an edge list as a chain of its own. -/
def writeAdjacency (supply : Supply) (record : AdjacencyRecord) : BackendM PageId := do
  if record.edges.length ≤ maxEdgesSinglePage then
    let page ← allocatePage supply
    writePage page (singlePage record)
    return page
  else
    let first ← allocatePage supply
    let next ← allocatePage supply
    writePage first (chainedFirstPage record next)
    -- These pages are built from an empty buffer.
    let written ← writeChunks supply (fun _ => pure fun _ => 0) record.edges.length next
      (record.edges.drop maxEdgesChainedPage)
    backpatchLastPageId first (written.getLast?.getD next)
    return first

/-- Follow a legacy chain to its last page and count the edges on the pages before it. -/
def walkToTail (backend : Backend) : (fuel : Nat) → (next last accounted : Nat) →
    Except Error (PageId × Nat)
  | 0, _, last, accounted => .ok (last, accounted)
  | fuel + 1, next, last, accounted =>
    if next = noNext then .ok (last, accounted)
    else do
      let data ← readPage backend next
      let following := readLe data.payload 0 4
      walkToTail backend fuel following next
        (if following = noNext then accounted else accounted + maxEdgesContPage)

def readAdjChainState (backend : Backend) (first : PageId) : Except Error ChainState := do
  let data ← readPage backend first
  ensureDedicatedChainPage first data
  let total := readLe data.payload 9 4
  if total ≤ maxEdgesSinglePage then
    return ⟨first, first, total, total, true⟩
  else if adjFormatV2 ≤ data.version then
    return stateAfterAppend first (readLe data.payload lastPageIdTailOffset 4) total
  else
    let (last, accounted) ← walkToTail backend (backend.file.count + 1)
      (readLe data.payload nextPageOffset 4) first (firstPageEdgesForVersion data.version)
    return ⟨first, last, total, total - accounted, false⟩

/-- Follow continuation pages until enough edges are read. -/
def readContinuation (backend : Backend) (total : Nat) : (fuel : Nat) → (next : Nat) → List Nat →
    Except Error (List Nat)
  | 0, _, edges => .ok edges
  | fuel + 1, next, edges =>
    if next ≠ noNext ∧ edges.length < total then do
      let data ← readPage backend next
      let batch := min (total - edges.length) maxEdgesContPage
      readContinuation backend total fuel (readLe data.payload 0 4)
        (edges ++ readWords data.payload contHeaderSize batch)
    else .ok edges

def decodeDirection (page : PageId) (byte : UInt8) : Except Error AdjDirection :=
  if byte = directionByte .outgoing then .ok .outgoing
  else if byte = directionByte .incoming then .ok .incoming
  else .error (adjCorrupt page "invalid adjacency direction")

def readAdjacency (backend : Backend) (page : PageId) : Except Error AdjacencyRecord := do
  let data ← readPage backend page
  ensureDedicatedChainPage page data
  let node := readLe data.payload 0 8
  let direction ← decodeDirection page (data.payload 8)
  let total := readLe data.payload 9 4
  if total ≤ maxEdgesSinglePage then
    return ⟨node, direction, readWords data.payload recordHeaderSize total⟩
  else
    let edges := readWords data.payload recordHeaderSize (firstPageEdgesForVersion data.version)
    -- Every page read adds an edge, so that many rounds are enough.
    let all ← readContinuation backend total total (readLe data.payload nextPageOffset 4) edges
    return ⟨node, direction, all⟩

/-- The stored count, not the cached one, decides where the edges go. -/
def appendIntoSinglePage (first : PageId) (added : List Nat) :
    BackendM (PageId × List PageId × ChainState) := do
  let mem ← readPayload first
  let existing := readLe mem 9 4
  let total := existing + added.length
  writePage first (finalizePage (splice (writeLe mem 9 4 total)
    (recordHeaderSize + existing * adjEdgeSize) (wordBytes added)))
  return (first, [first], stateAfterAppend first first total)

/-- Rewrite a legacy chain of several pages in the current format, the new edges included. -/
def tryMigrateV1Chain (supply : Supply) (node : Nat) (direction : AdjDirection) (first : PageId)
    (added : List Nat) : BackendM (Option (PageId × List PageId × ChainState)) := do
  let backend ← get
  let data ← ofResult (readPage backend first)
  if adjFormatV2 ≤ data.version ∨ readLe data.payload 9 4 ≤ maxEdgesSinglePage then
    return none
  else
    let present ← ofResult (readAdjacency backend first)
    let page ← writeAdjacency supply ⟨node, direction, present.edges ++ added⟩
    let backend ← get
    let migrated ← ofResult (readAdjChainState backend page)
    return some (page, [page], migrated)

/-- Turn a first page that held the whole list into the start of a chain; the answer is the
continuation page it links to. -/
def rewriteFirstPageChained (supply : Supply) (first : PageId) (total : Nat)
    (batch : List Nat) : BackendM PageId := do
  let mem ← readPayload first
  let head ← allocatePage supply
  writePage first (finalizePage (writeLe
    (splice (writeLe mem 9 4 total) recordHeaderSize (wordBytes batch)) nextPageOffset 4 head))
  return head

/-- Fill the last page of a chain and continue on new ones; the answer lists the pages
written. -/
def extendLastPage (supply : Supply) (last : PageId) (used : Nat) (filling rest : List Nat) :
    BackendM (List PageId) := do
  let mem ← readPayload last
  let next ← if rest.isEmpty then pure noNext else allocatePage supply
  writePage last (finalizePage (splice (writeLe mem 0 4 next) (contHeaderSize + used * adjEdgeSize)
    (wordBytes filling)))
  if rest.isEmpty then
    return [last]
  else
    let others ← writeContinuationPages supply next rest
    return last :: others

/-- Append to a chain whose state is known. -/
def appendFromState (supply : Supply) (first : PageId) (state : ChainState) (added : List Nat) :
    BackendM (PageId × List PageId × ChainState) := do
  let total := state.total + added.length
  if state.isSingle ∧ total ≤ maxEdgesSinglePage then
    appendIntoSinglePage first added
  else if state.isSingle then
    -- One of the edges present may have to make room for the trailer.
    let backend ← get
    let present ← ofResult (readAdjacency backend first)
    let all := present.edges ++ added
    let head ← rewriteFirstPageChained supply first total (all.take maxEdgesChainedPage)
    let written ← writeContinuationPages supply head (all.drop maxEdgesChainedPage)
    let last := written.getLast?.getD first
    backpatchLastPageId first last
    return (first, first :: written, stateAfterAppend first last total)
  else
    let room := min (maxEdgesContPage - state.lastUsed) added.length
    let written ← extendLastPage supply state.lastPage state.lastUsed (added.take room)
      (added.drop room)
    let last := written.getLast?.getD state.lastPage
    let mem ← readPayload first
    writePage first (finalizePage (writeLe (writeLe mem 9 4 total) lastPageIdTailOffset 4 last))
    return (first, written ++ [first], stateAfterAppend first last total)

/-- Append edges to a chain, or start one. The answer holds the first page, the pages to journal
and the new state. -/
def appendAdjacencyWithState (supply : Supply) (node : Nat) (direction : AdjDirection)
    (existing : Option PageId) (cached : Option ChainState) (added : List Nat) :
    BackendM (PageId × List PageId × ChainState) := do
  match existing, cached with
  | none, _ =>
    let page ← writeAdjacency supply ⟨node, direction, added⟩
    let backend ← get
    let state ← ofResult (if added.length ≤ maxEdgesSinglePage then
        .ok (stateAfterAppend page page added.length)
      else readAdjChainState backend page)
    return (page, [page], state)
  | some first, some state => appendFromState supply first state added
  | some first, none =>
    match ← tryMigrateV1Chain supply node direction first added with
    | some migrated => return migrated
    | none =>
      let backend ← get
      let state ← ofResult (readAdjChainState backend first)
      appendFromState supply first state added

end ErmyaGraph.AdjChainCodec
